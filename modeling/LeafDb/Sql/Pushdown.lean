import LeafDb.Sql.Join

/-!
# Predicate pushdown

`referenceContexts` scans the base table in full, performs all joins and only then applies the WHERE
conjuncts. A conjunct applied earlier, or an access path that reads part of the base table, keeps fewer
left contexts; for INNER and LEFT joins that commutes with the join (`join_filter`), while a later RIGHT
or FULL join pads the right rows that lost their partners.
-/

namespace LeafDb

section Reference

variable (lib : PyLib)

/-- All joins of a plan, without filters. -/
def joinAll : Scope → List JoinPlan → List Parts → Except PyError (Scope × List Parts)
  | scope, [], contexts => .ok (scope, contexts)
  | scope, j :: rest, contexts => do
    let scope ← scope.add j.label j.table.tmeta
    let joined ← join lib contexts j scope
    joinAll scope rest joined

/-- Full scan, all joins, and then the WHERE conjuncts. -/
def referenceContexts (p : Plan) (conjuncts : List Expr) : Except PyError (Scope × List Parts) := do
  let scope ← Scope.empty.add p.label p.base.tmeta
  let (scope, joined) ← joinAll lib scope p.joins (p.base.rows.map fun r => [some r.2])
  let kept ← applyStage lib scope conjuncts joined
  return (scope, kept)

end Reference

/-- The join pads right rows without a partner. -/
def JoinPlan.Outer (j : JoinPlan) : Prop := j.jtype = .right ∨ j.jtype = .full

/-- No RIGHT or FULL join comes after an early filter: where there is one, the base table is scanned in
full and every conjunct is applied after that join. -/
def Plan.NoOuterAfterFilter (p : Plan) : Prop :=
  ∀ (k : Nat) j, p.joins[k]? = some j → j.Outer → p.access = .seq ∧ ∀ f ∈ p.filters, k < f.1

/-! ### A filter and a join commute -/

section JoinSpec

variable {hit : Parts → Int × Row → Bool} {jtype : JoinType} {width : Nat} {right : List (Int × Row)}

theorem all_perm {α : Type} {l l' : List α} (h : l.Perm l') (p : α → Bool) : l.all p = l'.all p := by
  rw [Bool.eq_iff_iff, List.all_eq_true, List.all_eq_true]
  exact forall_congr' fun a => by rw [h.mem_iff]

theorem joinSpec_perm {left left' : List Parts} (h : left.Perm left') :
    (joinSpec hit jtype width left right).Perm (joinSpec hit jtype width left' right) := by
  unfold joinSpec
  refine (List.Perm.append (List.Perm.append ?_ ?_) ?_)
  · exact h.flatMap_right _
  · split
    · exact (h.filter _).map _
    · exact .refl _
  · split
    · exact .of_eq (by simp only [all_perm h])
    · exact .refl _

theorem filter_flatMap_of_const {α β : Type} {l : List α} {g : α → List β} {F : α → Bool} {F' : β → Bool}
    (h : ∀ a ∈ l, ∀ b ∈ g a, F' b = F a) : (l.flatMap g).filter F' = (l.filter F).flatMap g := by
  induction l with
  | nil => rfl
  | cons a l ih =>
    have ih := ih fun a' ha' => h a' (by simp [ha'])
    have ha := h a (by simp)
    rw [List.flatMap_cons, List.filter_append, ih, List.filter_cons]
    rcases hF : F a with _ | _
    · rw [List.filter_eq_nil_iff.2 fun b hb => by simp [ha b hb, hF]]
      simp
    · rw [List.filter_eq_self.2 fun b hb => by simp [ha b hb, hF]]
      simp

/-- INNER and LEFT joins treat the left contexts one by one. -/
theorem joinSpec_filter {left : List Parts} {F : Parts → Bool} (hj : ¬ (jtype = .right ∨ jtype = .full))
    (hF : ∀ l ∈ left, ∀ x, F (l ++ [x]) = F l) :
    joinSpec hit jtype width (left.filter F) right = (joinSpec hit jtype width left right).filter F := by
  unfold joinSpec
  rw [if_neg hj, List.append_nil, if_neg hj, List.append_nil, List.filter_append]
  congr 1
  · refine (filter_flatMap_of_const fun l hl b hb => ?_).symm
    obtain ⟨r, -, rfl⟩ := List.mem_map.1 hb
    exact hF l hl _
  · split
    · rw [List.filter_map, List.filter_filter, List.filter_filter]
      refine congrArg _ (List.filter_congr fun l hl => ?_)
      rw [Function.comp_apply, hF l hl, Bool.and_comm]
    · rfl

theorem length_of_mem_joinSpec {left : List Parts} (hl : ∀ l ∈ left, l.length = width) {parts : Parts}
    (h : parts ∈ joinSpec hit jtype width left right) : parts.length = width + 1 := by
  unfold joinSpec at h
  rcases List.mem_append.1 h with h | h
  · rcases List.mem_append.1 h with h | h
    · obtain ⟨l, hm, h⟩ := List.mem_flatMap.1 h
      obtain ⟨r, -, rfl⟩ := List.mem_map.1 h
      simp [hl l hm]
    · split at h
      · obtain ⟨l, hm, rfl⟩ := List.mem_map.1 h
        simp [hl l (List.mem_filter.1 hm).1]
      · cases h
  · split at h
    · obtain ⟨r, -, rfl⟩ := List.mem_map.1 h
      simp
    · cases h

end JoinSpec

variable {lib : PyLib}

/-- Filtering the left contexts before the join or the joined contexts after it. -/
theorem join_filter {S R S' R' : List Parts} {j : JoinPlan} {scope : Scope} (hS : join lib S j scope = .ok S')
    (hR : join lib R j scope = .ok R') {F : Parts → Bool} (hperm : S.Perm (R.filter F))
    (houter : j.Outer → ∀ l, F l = true) (hF : ∀ l ∈ R, ∀ x, F (l ++ [x]) = F l) : S'.Perm (R'.filter F) := by
  have hS' := (join_perm hS).trans (joinSpec_perm hperm)
  by_cases ho : j.Outer
  · have hall : ∀ l : List Parts, l.filter F = l := fun l => List.filter_eq_self.2 fun a _ => houter ho a
    rw [hall] at hS' ⊢
    exact hS'.trans (join_perm hR).symm
  · rw [joinSpec_filter ho hF] at hS'
    exact hS'.trans ((join_perm hR).symm.filter F)

/-! ### Stages -/

/-- The conjunct is `True` on the context. -/
def holdsAt (lib : PyLib) (scope : Scope) (c : Expr) (parts : Parts) : Bool :=
  match compileExpr lib scope [] false c with
  | .ok fn => decide (fn parts none = .ok (.bool true))
  | .error _ => false

theorem applyStage_ok {scope : Scope} {conjs : List Expr} {ctxs out : List Parts}
    (h : applyStage lib scope conjs ctxs = .ok out) :
    out = (ctxs.filter fun parts => conjs.all fun c => holdsAt lib scope c parts) ∧
      ∀ c ∈ conjs, ∃ fn, compileExpr lib scope [] false c = .ok fn := by
  induction conjs generalizing ctxs with
  | nil =>
    cases h
    exact ⟨(List.filter_eq_self.2 fun _ _ => rfl).symm, by simp⟩
  | cons c conjs ih =>
    obtain ⟨fn, hfn, h⟩ := do_eq_ok.1 h
    obtain ⟨kept, hk, h⟩ := do_eq_ok.1 h
    obtain ⟨rfl, hc⟩ := ih h
    obtain rfl := keepTrue_ok hk
    constructor
    · rw [List.filter_filter]
      refine List.filter_congr fun parts _ => ?_
      rw [List.all_cons, holdsAt, hfn, Bool.and_comm]
    · intro c' hc'
      rcases List.mem_cons.1 hc' with rfl | hc'
      · exact ⟨fn, hfn⟩
      · exact hc c' hc'

theorem applyStage_returns {scope : Scope} {conjs : List Expr} {ctxs : List Parts}
    (h : ∀ c ∈ conjs, ∃ fn, compileExpr lib scope [] false c = .ok fn ∧ ∀ l ∈ ctxs, ∃ v, fn l none = .ok v) :
    ∃ out, applyStage lib scope conjs ctxs = .ok out := by
  induction conjs generalizing ctxs with
  | nil => exact ⟨ctxs, rfl⟩
  | cons c conjs ih =>
    obtain ⟨fn, hfn, hev⟩ := h c List.mem_cons_self
    obtain ⟨kept, hkept⟩ := keepTrue_returns.2 hev
    obtain ⟨out, hout⟩ : ∃ out, applyStage lib scope conjs kept = .ok out := ih fun c' hc' => by
      obtain ⟨fn', hfn', hev'⟩ := h c' (List.mem_cons_of_mem _ hc')
      refine ⟨fn', hfn', fun l hl => hev' l ?_⟩
      rw [keepTrue_ok hkept] at hl
      exact List.mem_of_mem_filter hl
    exact ⟨out, do_eq_ok.2 ⟨fn, hfn, do_eq_ok.2 ⟨kept, hkept, hout⟩⟩⟩

/-- The filters of the stages up to `s` hold, each in the scope of its stage. -/
def passed (lib : PyLib) (filters : List (Nat × Expr)) (srcs : List (String × TableMeta)) (s : Nat) (parts : Parts) :
    Bool :=
  (filters.filter fun f => f.1 ≤ s).all fun f => holdsAt lib ⟨srcs.take (f.1 + 1), []⟩ f.2 (parts.take (f.1 + 1))

theorem passed_iff {filters : List (Nat × Expr)} {srcs : List (String × TableMeta)} {s : Nat} {parts : Parts} :
    passed lib filters srcs s parts = true ↔
      ∀ f ∈ filters, f.1 ≤ s → holdsAt lib ⟨srcs.take (f.1 + 1), []⟩ f.2 (parts.take (f.1 + 1)) = true := by
  rw [passed, List.all_eq_true]
  simp only [List.mem_filter, decide_eq_true_eq, and_imp]

/-- The filters up to a stage see only the sources joined by then. -/
theorem passed_extend_parts {filters : List (Nat × Expr)} {srcs : List (String × TableMeta)} {s : Nat} {parts : Parts}
    (hparts : parts.length = s + 1) (x : Option Row) :
    passed lib filters srcs s (parts ++ [x]) = passed lib filters srcs s parts := by
  rw [Bool.eq_iff_iff, passed_iff, passed_iff]
  refine forall_congr' fun f => forall_congr' fun _ => forall_congr' fun hf => ?_
  rw [List.take_append_of_le_length (by omega)]

theorem passed_extend_srcs {filters : List (Nat × Expr)} {srcs : List (String × TableMeta)} {s : Nat} {parts : Parts}
    (hsrcs : srcs.length = s + 1) (src : String × TableMeta) :
    passed lib filters (srcs ++ [src]) s parts = passed lib filters srcs s parts := by
  rw [Bool.eq_iff_iff, passed_iff, passed_iff]
  refine forall_congr' fun f => forall_congr' fun _ => forall_congr' fun hf => ?_
  rw [List.take_append_of_le_length (by omega)]

/-- The next stage adds its own conjuncts. -/
theorem passed_succ {p : Plan} {srcs : List (String × TableMeta)} {s : Nat} {parts : Parts}
    (hsrcs : srcs.length = s + 1 + 1) (hparts : parts.length = s + 1 + 1) :
    passed lib p.filters srcs (s + 1) parts =
      (passed lib p.filters srcs s parts && (p.stage (s + 1)).all fun c => holdsAt lib ⟨srcs, []⟩ c parts) := by
  have hfull : ∀ f : Nat × Expr, f.1 = s + 1 → srcs.take (f.1 + 1) = srcs ∧ parts.take (f.1 + 1) = parts := by
    intro f hf
    rw [List.take_of_length_le (by omega), List.take_of_length_le (by omega)]
    exact ⟨rfl, rfl⟩
  rw [Bool.eq_iff_iff, Bool.and_eq_true, passed_iff, passed_iff, List.all_eq_true]
  constructor
  · intro h
    refine ⟨fun f hf hfs => h f hf (by omega), fun c hc => ?_⟩
    obtain ⟨f, hf, rfl⟩ := List.mem_map.1 hc
    obtain ⟨hf, hfs⟩ := List.mem_filter.1 hf
    have hfs : f.1 = s + 1 := of_decide_eq_true hfs
    have hh := h f hf (by omega)
    rwa [(hfull f hfs).1, (hfull f hfs).2] at hh
  · rintro ⟨h, hstage⟩ f hf hfs
    rcases Nat.lt_or_ge f.1 (s + 1) with hlt | hge
    · exact h f hf (by omega)
    · have hfs : f.1 = s + 1 := by omega
      rw [(hfull f hfs).1, (hfull f hfs).2]
      exact hstage f.2 (List.mem_map.2 ⟨f, List.mem_filter.2 ⟨hf, by simpa using hfs⟩, rfl⟩)

theorem passed_zero {p : Plan} {srcs : List (String × TableMeta)} {parts : Parts} (hsrcs : srcs.length = 1)
    (hparts : parts.length = 1) :
    passed lib p.filters srcs 0 parts = (p.stage 0).all fun c => holdsAt lib ⟨srcs, []⟩ c parts := by
  have hfull : ∀ f : Nat × Expr, f.1 = 0 → srcs.take (f.1 + 1) = srcs ∧ parts.take (f.1 + 1) = parts := by
    intro f hf
    rw [List.take_of_length_le (by omega), List.take_of_length_le (by omega)]
    exact ⟨rfl, rfl⟩
  rw [Bool.eq_iff_iff, passed_iff, List.all_eq_true]
  constructor
  · intro h c hc
    obtain ⟨f, hf, rfl⟩ := List.mem_map.1 hc
    obtain ⟨hf, hfs⟩ := List.mem_filter.1 hf
    have hfs : f.1 = 0 := of_decide_eq_true hfs
    have hh := h f hf (by omega)
    rwa [(hfull f hfs).1, (hfull f hfs).2] at hh
  · intro h f hf hfs
    have hfs : f.1 = 0 := by omega
    rw [(hfull f hfs).1, (hfull f hfs).2]
    exact h f.2 (List.mem_map.2 ⟨f, List.mem_filter.2 ⟨hf, by simpa using hfs⟩, rfl⟩)

theorem add_ok {srcs : List (String × TableMeta)} {label : String} {m : TableMeta} {sc : Scope}
    (h : Scope.add ⟨srcs, []⟩ label m = .ok sc) : sc = ⟨srcs ++ [(label, m)], []⟩ := by
  unfold Scope.add at h
  split at h
  · cases h
  · cases h
    rfl

/-- The loop over the joins, with and without the filters of the stages. Where the joins alone return and the conjuncts of a
stage can be compiled and evaluated, it returns too. -/
theorem runJoins_perm {p : Plan} {A : Parts → Bool} (hA : ∀ l x, l ≠ [] → A (l ++ [x]) = A l)
    {rest : List JoinPlan} {srcs : List (String × TableMeta)} {s : Nat} (hlen : srcs.length = s + 1)
    {S R R' : List Parts} {sc : Scope} (hR : joinAll lib ⟨srcs, []⟩ rest R = .ok (sc, R'))
    (heval : ∀ k sc' ctxs, joinAll lib ⟨srcs, []⟩ (rest.take (k + 1)) R = .ok (sc', ctxs) → k < rest.length →
      ∀ c ∈ p.stage (s + k + 1), ∃ fn, compileExpr lib sc' [] false c = .ok fn ∧ ∀ l ∈ ctxs, ∃ v, fn l none = .ok v)
    (hinv : S.Perm (R.filter fun l => A l && passed lib p.filters srcs s l)) (hRlen : ∀ l ∈ R, l.length = s + 1)
    (hcond : ∀ (k : Nat) j, rest[k]? = some j → j.Outer → (∀ l, A l = true) ∧ ∀ f ∈ p.filters, s + k < f.1) :
    ∃ more S', sc = ⟨srcs ++ more, []⟩ ∧ more.length = rest.length ∧ runJoins lib p s ⟨srcs, []⟩ rest S = .ok (sc, S') ∧
      S'.Perm (R'.filter fun l => A l && passed lib p.filters (srcs ++ more) (s + rest.length) l) ∧
      (∀ l ∈ R', l.length = s + rest.length + 1) ∧
      ∀ f ∈ p.filters, s < f.1 → f.1 ≤ s + rest.length →
        ∃ fn, compileExpr lib ⟨(srcs ++ more).take (f.1 + 1), []⟩ [] false f.2 = .ok fn := by
  induction rest generalizing srcs s S R with
  | nil =>
    cases hR
    refine ⟨[], S, by simp, rfl, rfl, by simpa using hinv, by simpa using hRlen, fun f _ h h' => ?_⟩
    simp at h'
    omega
  | cons j rest ih =>
    have hjoins := hR
    obtain ⟨sc₂, hadd, hR⟩ := do_eq_ok.1 hR
    obtain ⟨R₁, hjoinR, hR⟩ := do_eq_ok.1 hR
    obtain rfl := add_ok hadd
    set srcs₁ := srcs ++ [(j.label, j.table.tmeta)] with hsrcs₁
    have hlen₁ : srcs₁.length = s + 1 + 1 := by simp [hsrcs₁, hlen]
    have hwidth : (⟨srcs₁, []⟩ : Scope).sources.length - 1 = s + 1 := by simp [hlen₁]
    have hR₁len : ∀ l ∈ R₁, l.length = s + 1 + 1 := fun l hl =>
      length_of_mem_joinSpec hRlen (hwidth ▸ (join_perm hjoinR).mem_iff.1 hl)
    have hjoinAll (k : Nat) (x : Scope × List Parts) (h : joinAll lib ⟨srcs₁, []⟩ (rest.take k) R₁ = .ok x) :
        joinAll lib ⟨srcs, []⟩ ((j :: rest).take (k + 1)) R = .ok x :=
      do_eq_ok.2 ⟨_, hadd, do_eq_ok.2 ⟨R₁, hjoinR, h⟩⟩
    obtain ⟨S₁, hjoinS⟩ := join_returns (fun l hl => List.mem_of_mem_filter (hinv.mem_iff.1 hl)) ⟨R₁, hjoinR⟩
    have hjoin : S₁.Perm (R₁.filter fun l => A l && passed lib p.filters srcs s l) := by
      refine join_filter hjoinS hjoinR hinv (fun ho l => ?_) fun l hl x => ?_
      · obtain ⟨hA', hf⟩ := hcond 0 j rfl ho
        rw [hA', Bool.true_and, passed_iff]
        intro f hfm hfs
        exact absurd (hf f hfm) (by omega)
      · have hne : l ≠ [] := by
          intro e
          have := hRlen l hl
          simp [e] at this
        rw [hA l x hne, passed_extend_parts (hRlen l hl)]
    have hstage₁ := heval 0 _ _ (hjoinAll 0 _ rfl) (Nat.succ_pos _)
    obtain ⟨K, hstage⟩ := applyStage_returns fun c hc => by
      obtain ⟨fn, hfn, hev⟩ := hstage₁ c hc
      exact ⟨fn, hfn, fun l hl => hev l (List.mem_of_mem_filter (hjoin.mem_iff.1 hl))⟩
    have hrunJ (x : Scope × List Parts) (h : runJoins lib p (s + 1) ⟨srcs₁, []⟩ rest K = .ok x) :
        runJoins lib p s ⟨srcs, []⟩ (j :: rest) S = .ok x :=
      do_eq_ok.2 ⟨_, hadd, do_eq_ok.2 ⟨S₁, hjoinS, do_eq_ok.2 ⟨K, hstage, h⟩⟩⟩
    obtain ⟨rfl, hcomp⟩ := applyStage_ok hstage
    have hinv₁ : (S₁.filter fun parts => (p.stage (s + 1)).all fun c => holdsAt lib ⟨srcs₁, []⟩ c parts).Perm
        (R₁.filter fun l => A l && passed lib p.filters srcs₁ (s + 1) l) := by
      refine (hjoin.filter _).trans (.of_eq ?_)
      rw [List.filter_filter]
      refine List.filter_congr fun l hl => ?_
      rw [passed_succ hlen₁ (hR₁len l hl), hsrcs₁, passed_extend_srcs hlen, Bool.and_comm, Bool.and_assoc]
    have heval₁ : ∀ k sc' ctxs, joinAll lib ⟨srcs₁, []⟩ (rest.take (k + 1)) R₁ = .ok (sc', ctxs) → k < rest.length →
        ∀ c ∈ p.stage (s + 1 + k + 1), ∃ fn, compileExpr lib sc' [] false c = .ok fn ∧
          ∀ l ∈ ctxs, ∃ v, fn l none = .ok v := by
      intro k sc' ctxs h hk
      have hs : s + 1 + k + 1 = s + (k + 1) + 1 := by omega
      rw [hs]
      exact heval (k + 1) sc' ctxs (hjoinAll (k + 1) _ h) (Nat.succ_lt_succ hk)
    obtain ⟨more, S', rfl, hmore, hrun, hperm, hRlen', hcomp'⟩ := ih hlen₁ hR heval₁ hinv₁ hR₁len fun k j' hj' ho => by
      obtain ⟨hA', hf⟩ := hcond (k + 1) j' hj' ho
      exact ⟨hA', fun f hfm => by have := hf f hfm; omega⟩
    have hsum : s + 1 + rest.length = s + (j :: rest).length := by simp; omega
    refine ⟨(j.label, j.table.tmeta) :: more, S', by simp [hsrcs₁], by simp [hmore], hrunJ _ hrun, ?_, ?_, ?_⟩
    · rw [← hsum, List.append_cons]
      exact hperm
    · rw [← hsum]
      exact hRlen'
    · intro f hfm hlt hle
      rw [List.append_cons]
      rcases Nat.lt_or_ge (s + 1) f.1 with h | h
      · exact hcomp' f hfm h (by omega)
      · have hf1 : f.1 = s + 1 := by omega
        rw [hf1, List.take_append_of_le_length hlen₁.ge, List.take_of_length_le hlen₁.le]
        exact hcomp f.2 (List.mem_map.2 ⟨f, List.mem_filter.2 ⟨hfm, by simpa using hf1⟩, rfl⟩)

/-! ### A conjunct in a larger scope -/

section Extend

variable {srcs more : List (String × TableMeta)} {parts : Parts} {x : Parts}

theorem hits_append (name : String) (i : Nat) (srcs more : List (String × TableMeta)) :
    Scope.hits name i (srcs ++ more) = Scope.hits name i srcs ++ Scope.hits name (i + srcs.length) more := by
  induction srcs generalizing i with
  | nil => simp [Scope.hits]
  | cons e srcs ih =>
    obtain ⟨label, m⟩ := e
    have hi : i + 1 + srcs.length = i + (srcs.length + 1) := by omega
    simp only [List.cons_append, Scope.hits, ih, List.length_cons, hi]
    rcases m.colnames.idxOf? name <;> rfl

theorem lt_of_mem_hits {name : String} {i : Nat} {srcs : List (String × TableMeta)} {hit : Nat × Nat}
    (h : hit ∈ Scope.hits name i srcs) : hit.1 < i + srcs.length := by
  induction srcs generalizing i with
  | nil => cases h
  | cons e srcs ih =>
    obtain ⟨label, m⟩ := e
    rw [Scope.hits] at h
    rw [List.length_cons]
    split at h
    · rcases List.mem_cons.1 h with rfl | h
      · simp
      · have := ih h
        omega
    · have := ih h
      omega

/-- A reference that resolves in both scopes resolves to the same place. -/
theorem resolve_extend {name : String} {table : Option String} {loc loc' : Nat × Nat}
    (h : Scope.resolve ⟨srcs, []⟩ name table = .ok loc) (h' : Scope.resolve ⟨srcs ++ more, []⟩ name table = .ok loc') :
    loc' = loc ∧ loc.1 < srcs.length := by
  unfold Scope.resolve at h h'
  rcases table with _ | tb
  · simp only [hits_append] at h h'
    split at h
    · rename_i hit he
      cases h
      rw [he] at h'
      have hlt := lt_of_mem_hits (he ▸ List.mem_singleton_self _ : loc ∈ Scope.hits name 0 srcs)
      split at h'
      · rename_i hit' he'
        cases h'
        rw [List.singleton_append, List.cons.injEq] at he'
        exact ⟨he'.1.symm, by omega⟩
      · cases h'
    · cases h
  · simp only at h h'
    rcases hi : srcs.findIdx? (·.1 = tb) with _ | i
    · simp [hi] at h
    · have hlt : i < srcs.length := (List.findIdx?_eq_some_iff_getElem.1 hi).1
      have hi' : (srcs ++ more).findIdx? (·.1 = tb) = some i := by
        rw [List.findIdx?_append, hi]
        rfl
      simp only [hi] at h
      simp only [hi', List.getElem?_append_left hlt] at h'
      have e := h.symm.trans h'
      split at h
      · cases h
        exact ⟨(Except.ok.inj e).symm, hlt⟩
      · cases h

theorem inItems_congr {v : Value} {negated : Bool} {env : AggEnv} {p q : Parts} {fs gs : List Closure}
    (h : List.Forall₂ (fun f g => g q env = f p env) fs gs) (saw : Bool) :
    inItems v negated q env saw gs = inItems v negated p env saw fs := by
  induction h generalizing saw with
  | nil => rfl
  | cons hfg _ ih => simp only [inItems, hfg, ih]

mutual

/-- An expression that compiles in both scopes has the same value on the larger context. -/
theorem compile_extend (hlen : parts.length = srcs.length) (env : AggEnv) : ∀ (e : Expr) (f g : Closure),
    compileExpr lib ⟨srcs, []⟩ [] false e = .ok f → compileExpr lib ⟨srcs ++ more, []⟩ [] false e = .ok g →
    g (parts ++ x) env = f parts env
  | .literal v, f, g, hf, hg => by
    cases hf
    cases hg
    rfl
  | .column name table, f, g, hf, hg => by
    simp only [compileExpr, compileColumn] at hf hg
    rcases hr : Scope.resolve ⟨srcs, []⟩ name table with err | loc
    · simp [hr] at hf
    rcases hr' : Scope.resolve ⟨srcs ++ more, []⟩ name table with err | loc'
    · simp [hr'] at hg
    obtain ⟨rfl, hlt⟩ := resolve_extend hr hr'
    simp only [hr, hr'] at hf hg
    cases hf
    cases hg
    simp only [readCol]
    rw [List.getElem?_append_left (hlen ▸ hlt)]
  | .func id _ _ _ _, f, g, hf, hg => by
    cases hf
    cases hg
    rfl
  | .isNull e _, f, g, hf, hg => by
    obtain ⟨f₁, h₁, hf⟩ := do_eq_ok.1 (by simpa only [compileExpr] using hf)
    obtain ⟨g₁, k₁, hg⟩ := do_eq_ok.1 (by simpa only [compileExpr] using hg)
    cases hf
    cases hg
    simp only [isNullFn, compile_extend hlen env e f₁ g₁ h₁ k₁]
  | .between e lo hi _, f, g, hf, hg => by
    obtain ⟨f₁, h₁, hf⟩ := do_eq_ok.1 (by simpa only [compileExpr] using hf)
    obtain ⟨f₂, h₂, hf⟩ := do_eq_ok.1 hf
    obtain ⟨f₃, h₃, hf⟩ := do_eq_ok.1 hf
    obtain ⟨g₁, k₁, hg⟩ := do_eq_ok.1 (by simpa only [compileExpr] using hg)
    obtain ⟨g₂, k₂, hg⟩ := do_eq_ok.1 hg
    obtain ⟨g₃, k₃, hg⟩ := do_eq_ok.1 hg
    cases hf
    cases hg
    simp only [betweenFn, compile_extend hlen env e f₁ g₁ h₁ k₁, compile_extend hlen env lo f₂ g₂ h₂ k₂,
      compile_extend hlen env hi f₃ g₃ h₃ k₃]
  | .inList e items _, f, g, hf, hg => by
    obtain ⟨f₁, h₁, hf⟩ := do_eq_ok.1 (by simpa only [compileExpr] using hf)
    obtain ⟨fs, hs, hf⟩ := do_eq_ok.1 hf
    obtain ⟨g₁, k₁, hg⟩ := do_eq_ok.1 (by simpa only [compileExpr] using hg)
    obtain ⟨gs, ks, hg⟩ := do_eq_ok.1 hg
    cases hf
    cases hg
    simp only [inFn, compile_extend hlen env e f₁ g₁ h₁ k₁, inItems_congr (compile_extends hlen env items fs gs hs ks)]
  | .like e pat _, f, g, hf, hg => by
    obtain ⟨f₁, h₁, hf⟩ := do_eq_ok.1 (by simpa only [compileExpr] using hf)
    obtain ⟨f₂, h₂, hf⟩ := do_eq_ok.1 hf
    obtain ⟨g₁, k₁, hg⟩ := do_eq_ok.1 (by simpa only [compileExpr] using hg)
    obtain ⟨g₂, k₂, hg⟩ := do_eq_ok.1 hg
    cases hf
    cases hg
    simp only [likeFn, compile_extend hlen env e f₁ g₁ h₁ k₁, compile_extend hlen env pat f₂ g₂ h₂ k₂]
  | .unary op e, f, g, hf, hg => by
    rcases op with _ | _
    all_goals
      obtain ⟨f₁, h₁, hf⟩ := do_eq_ok.1 (by simpa only [compileExpr] using hf)
      obtain ⟨g₁, k₁, hg⟩ := do_eq_ok.1 (by simpa only [compileExpr] using hg)
      cases hf
      cases hg
      simp only [notFn, negFn, compile_extend hlen env e f₁ g₁ h₁ k₁]
  | .binop op l r, f, g, hf, hg => by
    obtain ⟨f₁, h₁, hf⟩ := do_eq_ok.1 (by simpa only [compileExpr] using hf)
    obtain ⟨f₂, h₂, hf⟩ := do_eq_ok.1 hf
    obtain ⟨g₁, k₁, hg⟩ := do_eq_ok.1 (by simpa only [compileExpr] using hg)
    obtain ⟨g₂, k₂, hg⟩ := do_eq_ok.1 hg
    cases hf
    cases hg
    have hl := compile_extend hlen env l f₁ g₁ h₁ k₁
    have hr := compile_extend hlen env r f₂ g₂ h₂ k₂
    rcases op <;> simp only [binopFn, andFn, orFn, strictFn, hl, hr]

theorem compile_extends (hlen : parts.length = srcs.length) (env : AggEnv) : ∀ (es : List Expr) (fs gs : List Closure),
    compileExprs lib ⟨srcs, []⟩ [] false es = .ok fs → compileExprs lib ⟨srcs ++ more, []⟩ [] false es = .ok gs →
    List.Forall₂ (fun f g => g (parts ++ x) env = f parts env) fs gs
  | [], fs, gs, hf, hg => by
    cases hf
    cases hg
    exact .nil
  | e :: es, fs, gs, hf, hg => by
    obtain ⟨f₁, h₁, hf⟩ := do_eq_ok.1 (by simpa only [compileExprs] using hf)
    obtain ⟨fs₁, hs, hf⟩ := do_eq_ok.1 hf
    obtain ⟨g₁, k₁, hg⟩ := do_eq_ok.1 (by simpa only [compileExprs] using hg)
    obtain ⟨gs₁, ks, hg⟩ := do_eq_ok.1 hg
    cases hf
    cases hg
    exact .cons (compile_extend hlen env e f₁ g₁ h₁ k₁) (compile_extends hlen env es fs₁ gs₁ hs ks)

end

end Extend

/-! ### The two runs -/

theorem holdsAt_extend {srcs more : List (String × TableMeta)} {c : Expr} {parts : Parts} {n : Nat}
    (hn : n ≤ parts.length) (hlen : srcs.length = n)
    (hs : ∃ f, compileExpr lib ⟨srcs, []⟩ [] false c = .ok f)
    (hl : ∃ g, compileExpr lib ⟨srcs ++ more, []⟩ [] false c = .ok g) :
    holdsAt lib ⟨srcs, []⟩ c (parts.take n) = holdsAt lib ⟨srcs ++ more, []⟩ c parts := by
  obtain ⟨f, hf⟩ := hs
  obtain ⟨g, hg⟩ := hl
  have hpre : (parts.take n).length = srcs.length := by rw [List.length_take, hlen, min_eq_left hn]
  have e := compile_extend (x := parts.drop n) hpre none c f g hf hg
  rw [List.take_append_drop] at e
  simp only [holdsAt, hf, hg, e]

theorem length_availSources (base : String × TableMeta) (joins : List (String × TableMeta)) :
    (availSources base joins).length = joins.length + 1 := by
  rw [availSources, List.length_scanl]

theorem filterStage_le (avail : List (List (String × TableMeta))) (c : Expr) :
    filterStage avail c ≤ avail.length - 1 := by
  unfold filterStage
  split
  · exact le_rfl
  · split
    · rcases h : List.findIdx? _ avail with _ | i
      · exact le_rfl
      · have hlt := (List.findIdx?_eq_some_iff_getElem.1 h).1
        simp only [Option.getD_some]
        omega
    · exact le_rfl

/-- The filters of a plan are the conjuncts of WHERE, each at one stage. -/
theorem plan_filters {db : Tables} {sel : SelectCore} {p : Plan} (h : buildSelectPlan db sel = .ok p) :
    (∀ f ∈ p.filters, f.1 ≤ p.joins.length ∧ f.2 ∈ sel.conjuncts) ∧
      (∀ c ∈ sel.conjuncts, ∃ f ∈ p.filters, f.2 = c) ∧
      p.access = chooseAccess p.base.tmeta p.label (findEquiPredicates sel.conjuncts) := by
  obtain ⟨base, -, h⟩ := do_eq_ok.1 h
  obtain ⟨joins, -, h⟩ := do_eq_ok.1 h
  cases h
  refine ⟨fun f hf => ?_, fun c hc => ?_, rfl⟩
  · obtain ⟨s, hs, hf⟩ := List.mem_flatMap.1 hf
    obtain ⟨c, hc, rfl⟩ := List.mem_map.1 hf
    exact ⟨Nat.lt_succ_iff.1 (List.mem_range.1 hs), (List.mem_filter.1 hc).1⟩
  · set avail := availSources (sel.baseAlias, base.tmeta) (joins.map fun j => (j.label, j.table.tmeta)) with havail
    have hle := filterStage_le avail c
    rw [havail, length_availSources, List.length_map, Nat.add_sub_cancel, ← havail] at hle
    refine ⟨(filterStage avail c, c), ?_, rfl⟩
    refine List.mem_flatMap.2 ⟨filterStage avail c, List.mem_range.2 (Nat.lt_succ_of_le hle), ?_⟩
    exact List.mem_map.2 ⟨c, List.mem_filter.2 ⟨hc, by simp⟩, rfl⟩

/-- Column `j` of the base row equals `v`. -/
def baseEquals (j : Nat) (v : Value) : Parts → Bool
  | some row :: _ => Table.colEquals j v (0, row)
  | _ => false

/-- The rows an access path reads are those on which its equality holds. -/
theorem scan_through {t : Table} {label : String} {e : (String × Option String) × Value}
    (hm : columnMatches e.1 label t.tmeta.colnames = true) (hb : ∀ b, e.2 ≠ .bool b) {acc : Access}
    (hacc : throughEqui t e acc) :
    ∃ j, t.tmeta.colnames.idxOf? e.1.1 = some j ∧ acc.scan t = t.rows.filter (Table.colEquals j e.2) := by
  obtain ⟨j, hj, -⟩ := resolve_single hm
  refine ⟨j, hj, ?_⟩
  rcases acc with _ | v | ⟨col, v⟩
  · exact hacc.elim
  · obtain ⟨hpk, rfl⟩ := hacc
    rw [scan_pk_eq]
    refine List.filter_congr fun r hr => ?_
    have hx := t.pk_eq j (pkIndex_of_pkColumn t.colnames_nodup hpk hj) r hr
    rw [Bool.eq_iff_iff, decide_eq_true_eq, coercePk_iff hb]
    simp [Table.colEquals, hx]
  · obtain ⟨hi, rfl, rfl⟩ := hacc
    exact t.indexLookup_eq hi hj _

/-- An equality conjunct that is `True` on a context holds of its base row. -/
theorem baseEquals_of_holdsAt {m : TableMeta} {label : String} {more : List (String × TableMeta)} {c : Expr}
    {e : (String × Option String) × Value} (hm : columnMatches e.1 label m.colnames = true) (hc : IsEqui c e) {j : Nat}
    (hj : m.colnames.idxOf? e.1.1 = some j) {parts : Parts}
    (h : holdsAt lib ⟨(label, m) :: more, []⟩ c parts = true) : baseEquals j e.2 parts = true := by
  obtain ⟨⟨name, table⟩, v⟩ := e
  have hres : ∀ loc, Scope.resolve ⟨(label, m) :: more, []⟩ name table = .ok loc → loc = (0, j) := by
    intro loc hloc
    obtain ⟨j', hj', hr⟩ := resolve_single hm
    have hjj : j' = j := Option.some.inj (hj'.symm.trans hj)
    have hr : Scope.resolve ⟨[(label, m)], []⟩ name table = .ok (0, j') := hr
    exact hjj ▸ (resolve_extend hr hloc).1
  have hval : ∀ col, compileExpr lib ⟨(label, m) :: more, []⟩ [] false (.column name table) = .ok col →
      col = readCol 0 j := by
    intro col hcol
    simp only [compileExpr, compileColumn] at hcol
    rcases hr : Scope.resolve ⟨(label, m) :: more, []⟩ name table with err | loc
    · simp [hr] at hcol
    · rw [hr, hres loc hr] at hcol
      exact (Except.ok.inj hcol).symm
  have hread : ∀ x, readCol 0 j parts none = .ok x → x ≠ .none → x.pyEq v = true → baseEquals j v parts = true := by
    intro x hx hn he
    rcases parts with _ | ⟨_ | row, parts⟩
    · cases hx
    · cases hx
      exact absurd rfl hn
    · simp only [readCol, List.getElem?_cons_zero] at hx
      rcases hxr : row[j]? with _ | y
      · simp [hxr] at hx
      · obtain rfl : y = x := by simpa [hxr] using hx
        simp [baseEquals, Table.colEquals, hxr, hn, he]
  unfold holdsAt at h
  rcases hf : compileExpr lib ⟨(label, m) :: more, []⟩ [] false c with err | f
  · simp [hf] at h
  rw [hf] at h
  have htrue : f parts none = .ok (.bool true) := of_decide_eq_true h
  rcases hc with rfl | rfl
  · rw [compileExpr] at hf
    obtain ⟨col, hcol, hf⟩ := do_eq_ok.1 hf
    obtain ⟨lit, hlit, hf⟩ := do_eq_ok.1 hf
    cases hf
    obtain rfl := hval col hcol
    obtain rfl : (fun _ _ => .ok v) = lit := by simpa [compileExpr] using hlit
    obtain ⟨x, hx, htrue⟩ := do_eq_ok.1 htrue
    simp only [bind, Except.bind] at htrue
    split at htrue
    · cases htrue
    · rename_i hn
      refine hread x hx (not_or.1 hn).1 ?_
      simpa [Value.eq_eq_pyEq] using htrue
  · rw [compileExpr] at hf
    obtain ⟨lit, hlit, hf⟩ := do_eq_ok.1 hf
    obtain ⟨col, hcol, hf⟩ := do_eq_ok.1 hf
    cases hf
    obtain rfl := hval col hcol
    obtain rfl : (fun _ _ => .ok v) = lit := by simpa [compileExpr] using hlit
    simp only [binopFn, strictFn, bind, Except.bind] at htrue
    rcases hx : readCol 0 j parts none with err | x
    · simp [hx] at htrue
    · rw [hx] at htrue
      simp only at htrue
      split at htrue
      · cases htrue
      · rename_i hn
        refine hread x hx (not_or.1 hn).2 ?_
        rw [Value.pyEq_symm]
        simpa [Value.eq_eq_pyEq] using htrue

/-- What the base access path keeps: all rows, or those on which its equality holds. -/
theorem access_base (lib : PyLib) {db : Tables} {sel : SelectCore} {p : Plan} (hp : buildSelectPlan db sel = .ok p)
    (hb : ∀ e ∈ findEquiPredicates sel.conjuncts, ∀ b, e.2 ≠ .bool b) :
    ∃ A : Parts → Bool, (∀ l x, l ≠ [] → A (l ++ [x]) = A l) ∧ (p.access = .seq → ∀ l, A l = true) ∧
      (p.access.scan p.base).map (fun r => [some r.2]) = (p.base.rows.map fun r => [some r.2]).filter A ∧
      ∀ more parts, (∀ c ∈ sel.conjuncts, holdsAt lib ⟨(p.label, p.base.tmeta) :: more, []⟩ c parts = true) →
        A parts = true := by
  rcases chooseAccess_equi (plan_filters hp).2.2.symm with hseq | ⟨e, he, hm, hth⟩
  · exact ⟨fun _ => true, fun _ _ _ => rfl, fun _ _ => rfl, by simp [hseq, Access.scan], fun _ _ _ => rfl⟩
  · obtain ⟨c, hc, hce⟩ := isEqui_of_mem he
    obtain ⟨j, hj, hscan⟩ := scan_through hm (hb e he) hth
    refine ⟨baseEquals j e.2, ?_, fun hseq => ?_, ?_, fun more parts hall => ?_⟩
    · rintro (_ | ⟨_ | row, l⟩) x hl
      · exact absurd rfl hl
      · rfl
      · rfl
    · rw [hseq] at hth
      exact hth.elim
    · rw [hscan, List.filter_map]
      rfl
    · exact baseEquals_of_holdsAt hm hce hj (hall c hc)

end LeafDb
