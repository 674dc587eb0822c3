import LeafDb.Sql.Double
import LeafDb.Sql.GroupBy

/-!
# Aggregates of rows in any order (`_accumulate`)

On integers and texts every aggregate gives the same result, or raises the same, for each order of its values
(`accumulate_perm`). What it raises on is another matter: SUM checks its values while it adds them, so that a single
text is never checked and comes back as the sum; and the average of integers can be beyond the doubles.
-/

namespace LeafDb

/-- An INT or a TEXT. -/
def Value.IsCell : Value → Prop
  | .int _ => True
  | .str _ => True
  | _ => False

theorem Value.IsCell.cases {v : Value} (h : v.IsCell) : (∃ i, v = .int i) ∨ ∃ s, v = .str s := by
  cases v with
  | int i => exact .inl ⟨i, rfl⟩
  | str s => exact .inr ⟨s, rfl⟩
  | _ => exact h.elim

def HasText (values : List Value) : Prop := ∃ s, .str s ∈ values

def HasInt (values : List Value) : Prop := ∃ i, .int i ∈ values

/-- The integers among the values. -/
def intsOf (values : List Value) : List Int :=
  values.filterMap fun v =>
    match v with
    | .int i => some i
    | _ => none

def average (values : List Value) : ℚ := ((intsOf values).sum : ℚ) / values.length

/-- `x` raises. -/
def Raises (x : Except PyError Value) : Prop := ∃ e, x = .error e

section Cells

variable {values : List Value}

theorem values_eq_ints (hcells : ∀ v ∈ values, v.IsCell) (h : ¬ HasText values) :
    values = (intsOf values).map .int := by
  induction values with
  | nil => rfl
  | cons v vs ih =>
    rcases (hcells v List.mem_cons_self).cases with ⟨i, rfl⟩ | ⟨s, rfl⟩
    · have hrest := ih (fun w hw => hcells w (List.mem_cons_of_mem _ hw)) fun ⟨s, hs⟩ => h ⟨s, List.mem_cons_of_mem _ hs⟩
      exact congrArg (Value.int i :: ·) hrest
    · exact absurd ⟨s, List.mem_cons_self⟩ h

theorem values_eq_texts (hcells : ∀ v ∈ values, v.IsCell) (h : ¬ HasInt values) :
    ∃ texts : List String, values = texts.map .str := by
  induction values with
  | nil => exact ⟨[], rfl⟩
  | cons v vs ih =>
    rcases (hcells v List.mem_cons_self).cases with ⟨i, rfl⟩ | ⟨s, rfl⟩
    · exact absurd ⟨i, List.mem_cons_self⟩ h
    · obtain ⟨texts, rfl⟩ := ih (fun w hw => hcells w (List.mem_cons_of_mem _ hw)) fun ⟨i, hi⟩ => h ⟨i, List.mem_cons_of_mem _ hi⟩
      exact ⟨s :: texts, rfl⟩

/-! ### SUM and AVG -/

theorem addValues_text (hcells : ∀ v ∈ values, v.IsCell) (h : HasText values) (total : Int) :
    addValues (.int total) values = .error .executionError := by
  induction values generalizing total with
  | nil => exact absurd h.choose_spec List.not_mem_nil
  | cons v vs ih =>
    rcases (hcells v List.mem_cons_self).cases with ⟨i, rfl⟩ | ⟨s, rfl⟩
    · obtain ⟨s, hs⟩ := h
      have hs : .str s ∈ vs := (List.mem_cons.1 hs).resolve_left (by simp)
      exact ih (fun w hw => hcells w (List.mem_cons_of_mem _ hw)) ⟨s, hs⟩ (total + i)
    · rfl

/-- Two values are enough for SUM to look at every one. -/
theorem sum_text {v w : Value} (hcells : ∀ x ∈ v :: w :: values, x.IsCell) (h : HasText (v :: w :: values)) :
    accumulate "SUM" (v :: w :: values) = .error .executionError := by
  rcases (hcells v List.mem_cons_self).cases with ⟨i, rfl⟩ | ⟨s, rfl⟩
  · obtain ⟨s, hs⟩ := h
    have hs : .str s ∈ w :: values := (List.mem_cons.1 hs).resolve_left (by simp)
    exact addValues_text (fun x hx => hcells x (List.mem_cons_of_mem _ hx)) ⟨s, hs⟩ i
  · rfl

theorem avg_text (hcells : ∀ v ∈ values, v.IsCell) (h : HasText values) :
    accumulate "AVG" values = .error .executionError := by
  rcases values with _ | ⟨v, vs⟩
  · exact absurd h.choose_spec List.not_mem_nil
  · show (do trueDiv (← addValues (.int 0) (v :: vs)) (v :: vs).length) = _
    rw [addValues_text hcells h]
    rfl

theorem intTrueDiv_eq (i : Int) (n : Nat) : Value.intTrueDiv i n =
    if |(i : ℚ) / n| < 2 ^ 1024 - 2 ^ 970 then .ok (PyFloat.ofRat false ((i : ℚ) / n)) else .error .overflowError := by
  have hnone := roundMag_eq_none (abs_nonneg ((i : ℚ) / n))
  unfold Value.intTrueDiv PyFloat.ofRat
  rw [Int.cast_natCast]
  cases hround : roundMag |(i : ℚ) / n| with
  | none => rw [if_neg (not_lt.2 (hnone.1 hround))]
  | some m =>
    have hlt := hnone.not.1 (by rw [hround]; exact Option.some_ne_none m)
    rw [if_pos (not_le.1 hlt)]

theorem sum_ints (hcells : ∀ v ∈ values, v.IsCell) (h : ¬ HasText values) :
    accumulate "SUM" values = .ok (if values = [] then .none else .int (intsOf values).sum) := by
  have hints := values_eq_ints hcells h
  generalize intsOf values = ints at hints ⊢
  subst hints
  rw [accumulate_ints (by simp) ints]
  simp

theorem avg_ints (hcells : ∀ v ∈ values, v.IsCell) (h : ¬ HasText values) : accumulate "AVG" values =
    if values = [] then .ok .none
    else if |average values| < 2 ^ 1024 - 2 ^ 970 then .ok (.float (PyFloat.ofRat false (average values)))
    else .error .overflowError := by
  rcases values with _ | ⟨v, vs⟩
  · rfl
  · have hadd : addValues (.int 0) (v :: vs) = .ok (.int (intsOf (v :: vs)).sum) := by
      conv_lhs => rw [values_eq_ints hcells h]
      rw [addValues_ints, zero_add]
    show (do trueDiv (← addValues (.int 0) (v :: vs)) (v :: vs).length) = _
    rw [hadd, if_neg (List.cons_ne_nil v vs)]
    show (do return Value.float (← Value.intTrueDiv (intsOf (v :: vs)).sum (v :: vs).length)) = _
    rw [intTrueDiv_eq]
    unfold average
    split <;> rfl

/-! ### MIN and MAX -/

theorem bestValue_mixed {name : String} {best v : Value} (hv : v ∈ values) (h : v.isStr ≠ best.isStr) :
    bestValue name best values = .error .executionError := by
  induction values generalizing best with
  | nil => exact absurd hv List.not_mem_nil
  | cons w ws ih =>
    rw [bestValue]
    by_cases hw : best.isStr = w.isStr
    · have hcmp : ∃ c, best.orderCmp w = .ok c := by
        unfold Value.orderCmp
        rw [if_neg (not_not.2 hw)]
        split
        · exact ⟨_, rfl⟩
        · split <;> exact ⟨_, rfl⟩
      obtain ⟨c, hc⟩ := hcmp
      rw [hc]
      rcases List.mem_cons.1 hv with rfl | hv
      · exact absurd hw.symm h
      · show bestValue name (if _ then w else best) ws = _
        refine ih hv ?_
        split
        · rwa [← hw]
        · exact h
    · have hcmp : best.orderCmp w = .error .executionError := by rw [Value.orderCmp, if_pos hw]
      rw [hcmp]
      rfl

theorem best_mixed {name : String} (hname : name = "MIN" ∨ name = "MAX") (hint : HasInt values) (htext : HasText values) :
    accumulate name values = .error .executionError := by
  obtain ⟨i, hi⟩ := hint
  obtain ⟨s, hs⟩ := htext
  rcases values with _ | ⟨v, vs⟩
  · exact absurd hi List.not_mem_nil
  · have hbest : accumulate name (v :: vs) = bestValue name v vs := by rcases hname with rfl | rfl <;> rfl
    rw [hbest]
    rcases List.mem_cons.1 hi with rfl | hi
    · exact bestValue_mixed ((List.mem_cons.1 hs).resolve_left (by simp)) (by simp [Value.isStr])
    · cases hv : v.isStr with
      | true => exact bestValue_mixed hi (by rw [hv]; simp [Value.isStr])
      | false =>
        have hne : Value.str s ≠ v := by
          rintro rfl
          cases hv
        exact bestValue_mixed ((List.mem_cons.1 hs).resolve_left hne) (by rw [hv]; simp [Value.isStr])

theorem orderedBy_str : OrderedBy Value.str := by
  intro s t
  simp only [Value.orderCmp, Value.isStr, ne_eq, not_true_eq_false, if_false, Value.pyLt, decide_eq_true_eq]
  split
  · rfl
  · split <;> rfl

section Best

variable {α : Type} [LinearOrder α] {f : α → Value}

theorem min_eq (hf : OrderedBy f) (as : List α) : accumulate "MIN" (as.map f) = .ok (as.min?.elim .none f) := by
  rcases as with _ | ⟨a, as⟩
  · rfl
  · rw [List.min?_cons']
    exact bestValue_min hf a as

theorem max_eq (hf : OrderedBy f) (as : List α) : accumulate "MAX" (as.map f) = .ok (as.max?.elim .none f) := by
  rcases as with _ | ⟨a, as⟩
  · rfl
  · rw [List.max?_cons']
    exact bestValue_max hf a as

end Best

/-! ### Permutations -/

section Perm

variable {values' : List Value}

theorem hasText_perm (h : values.Perm values') : HasText values' ↔ HasText values :=
  exists_congr fun _ => h.mem_iff.symm

theorem hasInt_perm (h : values.Perm values') : HasInt values' ↔ HasInt values :=
  exists_congr fun _ => h.mem_iff.symm

theorem min?_perm {α : Type} [LinearOrder α] {as bs : List α} (h : as.Perm bs) : as.min? = bs.min? := by
  refine Option.ext fun m => ?_
  rw [List.min?_eq_some_iff, List.min?_eq_some_iff, h.mem_iff]
  simp only [h.mem_iff]

theorem max?_perm {α : Type} [LinearOrder α] {as bs : List α} (h : as.Perm bs) : as.max? = bs.max? := by
  refine Option.ext fun m => ?_
  rw [List.max?_eq_some_iff, List.max?_eq_some_iff, h.mem_iff]
  simp only [h.mem_iff]

theorem exists_map_of_perm {α : Type} {f : α → Value} {as : List α} (h : (as.map f).Perm values') :
    ∃ bs, values' = bs.map f ∧ as.Perm bs := by
  have hcomp : (Relation.Comp (· = List.map f ·) List.Perm) values' as := by
    rw [List.eq_map_comp_perm]
    exact h.symm
  obtain ⟨bs, hbs, hperm⟩ := hcomp
  exact ⟨bs, hbs, hperm.symm⟩

/-- Either all values come from one order, or MIN and MAX raise. -/
theorem best_perm {name : String} (hname : name = "MIN" ∨ name = "MAX") (hcells : ∀ v ∈ values, v.IsCell)
    (h : values.Perm values') : accumulate name values' = accumulate name values := by
  have key {α : Type} [LinearOrder α] {f : α → Value} (hf : OrderedBy f) {as : List α} (has : values = as.map f) :
      accumulate name values' = accumulate name values := by
    subst has
    obtain ⟨bs, rfl, hperm⟩ := exists_map_of_perm h
    rcases hname with rfl | rfl
    · rw [min_eq hf, min_eq hf, min?_perm hperm]
    · rw [max_eq hf, max_eq hf, max?_perm hperm]
  by_cases htext : HasText values
  · by_cases hint : HasInt values
    · rw [best_mixed hname hint htext, best_mixed hname ((hasInt_perm h).2 hint) ((hasText_perm h).2 htext)]
    · obtain ⟨texts, heq⟩ := values_eq_texts hcells hint
      exact key orderedBy_str heq
  · exact key orderedBy_int (values_eq_ints hcells htext)

theorem intsOf_perm (h : values.Perm values') : (intsOf values').sum = (intsOf values).sum := (h.filterMap _).sum_eq.symm

theorem average_perm (h : values.Perm values') : average values' = average values := by
  rw [average, average, intsOf_perm h, h.length_eq]

theorem nil_iff_of_perm (h : values.Perm values') : values' = [] ↔ values = [] := by
  rw [← List.length_eq_zero_iff, ← List.length_eq_zero_iff, h.length_eq]

theorem sum_perm (hcells : ∀ v ∈ values, v.IsCell) (h : values.Perm values') :
    accumulate "SUM" values' = accumulate "SUM" values := by
  have hcells' : ∀ v ∈ values', v.IsCell := fun v hv => hcells v (h.mem_iff.2 hv)
  by_cases htext : HasText values
  · rcases values with _ | ⟨v, _ | ⟨w, rest⟩⟩
    · rw [List.nil_perm.1 h]
    · rw [List.singleton_perm.1 h]
    · rcases values' with _ | ⟨v', _ | ⟨w', rest'⟩⟩
      · exact absurd h.length_eq (by simp)
      · exact absurd h.length_eq (by simp)
      · rw [sum_text hcells htext, sum_text hcells' ((hasText_perm h).2 htext)]
  · rw [sum_ints hcells htext, sum_ints hcells' ((hasText_perm h).not.2 htext), intsOf_perm h]
    simp only [nil_iff_of_perm h]

theorem avg_perm (hcells : ∀ v ∈ values, v.IsCell) (h : values.Perm values') :
    accumulate "AVG" values' = accumulate "AVG" values := by
  have hcells' : ∀ v ∈ values', v.IsCell := fun v hv => hcells v (h.mem_iff.2 hv)
  by_cases htext : HasText values
  · rw [avg_text hcells htext, avg_text hcells' ((hasText_perm h).2 htext)]
  · rw [avg_ints hcells htext, avg_ints hcells' ((hasText_perm h).not.2 htext), average_perm h]
    simp only [nil_iff_of_perm h]

theorem accumulate_perm {name : String} (hname : name ∈ ["COUNT", "SUM", "AVG", "MIN", "MAX"])
    (hcells : ∀ v ∈ values, v.IsCell) (h : values.Perm values') : accumulate name values' = accumulate name values := by
  have hcases : name = "COUNT" ∨ name = "SUM" ∨ name = "AVG" ∨ name = "MIN" ∨ name = "MAX" := by simpa using hname
  rcases hcases with rfl | rfl | rfl | hbest
  · show Except.ok (Value.int values'.length) = .ok (.int values.length)
    rw [h.length_eq]
  · exact sum_perm hcells h
  · exact avg_perm hcells h
  · exact best_perm hbest hcells h

end Perm

end Cells

/-! ### What the aggregates raise on -/

/-- The aggregates depend on the values, not on their order. SUM and AVG raise on lists with a text, MIN and MAX on lists
with both types; otherwise SUM is the exact sum and AVG the double nearest to the average. -/
structure RowOrderFree (values : List Value) : Prop where
  perm : ∀ name ∈ ["COUNT", "SUM", "AVG", "MIN", "MAX"], ∀ values', values.Perm values' →
    (∃ v, accumulate name values = .ok v ∧ accumulate name values' = .ok v) ∨
      (accumulate name values = .error .executionError ∧ accumulate name values' = .error .executionError)
  sum_raises : Raises (accumulate "SUM" values) ↔ values ≠ [] ∧ HasText values
  avg_raises : Raises (accumulate "AVG" values) ↔ values ≠ [] ∧ HasText values
  sum : ¬ HasText values → accumulate "SUM" values = .ok (if values = [] then .none else .int (intsOf values).sum)
  avg : ¬ HasText values →
    accumulate "AVG" values = .ok (if values = [] then .none else .float (PyFloat.ofRat false (average values)))
  min_raises : Raises (accumulate "MIN" values) ↔ HasInt values ∧ HasText values
  max_raises : Raises (accumulate "MAX" values) ↔ HasInt values ∧ HasText values

/-- No single text, and no integers whose average is beyond the doubles. -/
def AccumulateSafe (values : List Value) : Prop :=
  (¬ ∃ s, values = [.str s]) ∧ (¬ HasText values → |average values| < 2 ^ 1024 - 2 ^ 970)

section Safe

variable {values : List Value}

theorem not_raises_ok {x : Except PyError Value} {v : Value} (h : x = .ok v) : ¬ Raises x := by
  rintro ⟨e, he⟩
  rw [h] at he
  cases he

theorem HasText.ne_nil (h : HasText values) : values ≠ [] := by
  rintro rfl
  exact List.not_mem_nil h.choose_spec

/-- MIN and MAX raise on both types only. -/
theorem best_cases {name : String} (hname : name = "MIN" ∨ name = "MAX") (hcells : ∀ v ∈ values, v.IsCell) :
    (HasInt values ∧ HasText values ∧ accumulate name values = .error .executionError) ∨
      (¬ (HasInt values ∧ HasText values) ∧ ∃ v, accumulate name values = .ok v) := by
  by_cases htext : HasText values
  · by_cases hint : HasInt values
    · exact .inl ⟨hint, htext, best_mixed hname hint htext⟩
    · obtain ⟨texts, rfl⟩ := values_eq_texts hcells hint
      refine .inr ⟨fun h => hint h.1, ?_⟩
      rcases hname with rfl | rfl
      · exact ⟨_, min_eq orderedBy_str texts⟩
      · exact ⟨_, max_eq orderedBy_str texts⟩
  · refine .inr ⟨fun h => htext h.2, ?_⟩
    rw [values_eq_ints hcells htext]
    rcases hname with rfl | rfl
    · exact ⟨_, min_eq orderedBy_int _⟩
    · exact ⟨_, max_eq orderedBy_int _⟩

theorem best_raises {name : String} (hname : name = "MIN" ∨ name = "MAX") (hcells : ∀ v ∈ values, v.IsCell) :
    Raises (accumulate name values) ↔ HasInt values ∧ HasText values := by
  rcases best_cases hname hcells with ⟨hint, htext, herr⟩ | ⟨hnot, v, hv⟩
  · exact ⟨fun _ => ⟨hint, htext⟩, fun _ => ⟨_, herr⟩⟩
  · exact ⟨fun h => absurd h (not_raises_ok hv), fun h => absurd h hnot⟩

theorem AccumulateSafe.sum_text (h : AccumulateSafe values) (hcells : ∀ v ∈ values, v.IsCell) (htext : HasText values) :
    accumulate "SUM" values = .error .executionError := by
  rcases values with _ | ⟨v, _ | ⟨w, rest⟩⟩
  · exact absurd rfl htext.ne_nil
  · obtain ⟨s, hs⟩ := htext
    obtain rfl := List.mem_singleton.1 hs
    exact absurd ⟨s, rfl⟩ h.1
  · exact LeafDb.sum_text hcells htext

theorem AccumulateSafe.avg_ints (h : AccumulateSafe values) (hcells : ∀ v ∈ values, v.IsCell) (htext : ¬ HasText values) :
    accumulate "AVG" values = .ok (if values = [] then .none else .float (PyFloat.ofRat false (average values))) := by
  rw [LeafDb.avg_ints hcells htext, if_pos (h.2 htext)]
  split <;> rfl

theorem AccumulateSafe.cases (h : AccumulateSafe values) (hcells : ∀ v ∈ values, v.IsCell) {name : String}
    (hname : name ∈ ["COUNT", "SUM", "AVG", "MIN", "MAX"]) :
    (∃ v, accumulate name values = .ok v) ∨ accumulate name values = .error .executionError := by
  have hcases : name = "COUNT" ∨ name = "SUM" ∨ name = "AVG" ∨ name = "MIN" ∨ name = "MAX" := by simpa using hname
  rcases hcases with rfl | rfl | rfl | hbest
  · exact .inl ⟨_, rfl⟩
  · by_cases htext : HasText values
    · exact .inr (h.sum_text hcells htext)
    · exact .inl ⟨_, sum_ints hcells htext⟩
  · by_cases htext : HasText values
    · exact .inr (avg_text hcells htext)
    · exact .inl ⟨_, h.avg_ints hcells htext⟩
  · rcases best_cases hbest hcells with ⟨-, -, herr⟩ | ⟨-, hv⟩
    · exact .inr herr
    · exact .inl hv

theorem AccumulateSafe.rowOrderFree (h : AccumulateSafe values) (hcells : ∀ v ∈ values, v.IsCell) :
    RowOrderFree values where
  perm name hname values' hperm := by
    rw [accumulate_perm hname hcells hperm]
    rcases h.cases hcells hname with ⟨v, hv⟩ | herr
    · exact .inl ⟨v, hv, hv⟩
    · exact .inr ⟨herr, herr⟩
  sum_raises := by
    by_cases htext : HasText values
    · exact ⟨fun _ => ⟨htext.ne_nil, htext⟩, fun _ => ⟨_, h.sum_text hcells htext⟩⟩
    · exact ⟨fun hr => absurd hr (not_raises_ok (sum_ints hcells htext)), fun ht => absurd ht.2 htext⟩
  avg_raises := by
    by_cases htext : HasText values
    · exact ⟨fun _ => ⟨htext.ne_nil, htext⟩, fun _ => ⟨_, avg_text hcells htext⟩⟩
    · exact ⟨fun hr => absurd hr (not_raises_ok (h.avg_ints hcells htext)), fun ht => absurd ht.2 htext⟩
  sum := sum_ints hcells
  avg := h.avg_ints hcells
  min_raises := best_raises (.inl rfl) hcells
  max_raises := best_raises (.inr rfl) hcells

theorem RowOrderFree.safe (h : RowOrderFree values) (hcells : ∀ v ∈ values, v.IsCell) : AccumulateSafe values := by
  refine ⟨?_, fun htext => ?_⟩
  · rintro ⟨s, rfl⟩
    exact not_raises_ok rfl (h.sum_raises.2 ⟨List.cons_ne_nil _ _, s, List.mem_cons_self⟩)
  · by_contra hlimit
    rcases eq_or_ne values [] with rfl | hne
    · have hpos : (0 : ℚ) < 2 ^ 1024 - 2 ^ 970 := sub_pos.2 (pow_lt_pow_right₀ one_lt_two (by omega))
      exact hlimit (by simpa [average] using hpos)
    · have havg := h.avg htext
      rw [LeafDb.avg_ints hcells htext, if_neg hne, if_neg hlimit] at havg
      cases havg

end Safe

theorem rowOrderFree_iff {values : List Value} (hcells : ∀ v ∈ values, v.IsCell) :
    RowOrderFree values ↔ AccumulateSafe values :=
  ⟨fun h => h.safe hcells, fun h => h.rowOrderFree hcells⟩

theorem abs_sum_le {ints : List Int} {bound : Int} (h : ∀ i ∈ ints, |i| ≤ bound) : |ints.sum| ≤ ints.length * bound := by
  induction ints with
  | nil => simp
  | cons i ints ih =>
    have hi := h i List.mem_cons_self
    have hrest := ih fun j hj => h j (List.mem_cons_of_mem _ hj)
    rw [List.sum_cons, List.length_cons]
    push_cast
    linarith [abs_add_le i ints.sum]

/-- The average of the integers a column stores is never beyond the doubles. -/
theorem average_lt {values : List Value} (h : ∀ i ∈ intsOf values, |i| ≤ 2 ^ 63) : |average values| < 2 ^ 1024 - 2 ^ 970 := by
  have hlimit : (2 : ℚ) ^ 63 < 2 ^ 1024 - 2 ^ 970 := by
    have h971 : (2 : ℚ) ^ 971 < 2 ^ 1024 := pow_lt_pow_right₀ one_lt_two (by omega)
    have h63 : (2 : ℚ) ^ 63 ≤ 2 ^ 970 := pow_le_pow_right₀ one_le_two (by omega)
    rw [pow_succ' 2 970] at h971
    generalize (2 : ℚ) ^ 970 = u at *
    generalize (2 : ℚ) ^ 1024 = v at *
    linarith
  refine lt_of_le_of_lt ?_ hlimit
  have hsum : |((intsOf values).sum : ℚ)| ≤ values.length * 2 ^ 63 := by
    have hle : |(intsOf values).sum| ≤ values.length * 2 ^ 63 := by
      have hlen : (intsOf values).length ≤ values.length := List.length_filterMap_le _ _
      exact (abs_sum_le h).trans (mul_le_mul_of_nonneg_right (by exact_mod_cast hlen) (by positivity))
    exact_mod_cast hle
  rw [average, abs_div, Nat.abs_cast]
  exact div_le_of_le_mul₀ (Nat.cast_nonneg _) (by positivity) (by rwa [mul_comm])

theorem rowOrderFree_iff_mixed :
    RowOrderFree [.int 1, .str "a"] ↔ AccumulateSafe [.int 1, .str "a"] :=
  rowOrderFree_iff (by simp [Value.IsCell])

/-- SUM of one text is that text. -/
theorem not_rowOrderFree : ¬ ∀ values : List Value, (∀ v ∈ values, v.IsCell) → RowOrderFree values := by
  intro h
  have hcells : ∀ v ∈ [Value.str "a"], v.IsCell := by simp [Value.IsCell]
  exact ((h _ hcells).safe hcells).1 ⟨"a", rfl⟩

end LeafDb
