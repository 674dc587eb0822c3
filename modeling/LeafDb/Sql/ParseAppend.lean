import LeafDb.Base.ParserSim
import LeafDb.Sql.Parse

/-!
# The expression parser stops at a semicolon

No level of the expression parser takes a semicolon, and each decides where to stop in the same way at a semicolon
as at the end of the input. So what it reads from some tokens it also reads when a semicolon and anything else
follow them, and it leaves what follows alone. The tree is the same but for the identities of its nodes, all of which
move by the number of the tokens that follow.
-/

namespace LeafDb

namespace Expr

mutual

/-- The tree with the identity of every node moved by `k`. -/
def shift (k : Nat) : Expr → Expr
  | literal v => literal v
  | column name table => column name table
  | func id name none star distinct => func (id + k) name none star distinct
  | func id name (some e) star distinct => func (id + k) name (some (shift k e)) star distinct
  | isNull e negated => isNull (shift k e) negated
  | between e lo hi negated => between (shift k e) (shift k lo) (shift k hi) negated
  | inList e items negated => inList (shift k e) (shiftItems k items) negated
  | like e pattern negated => like (shift k e) (shift k pattern) negated
  | unary op e => unary op (shift k e)
  | binop op l r => binop op (shift k l) (shift k r)

def shiftItems (k : Nat) : List Expr → List Expr
  | [] => []
  | e :: es => shift k e :: shiftItems k es

end

end Expr

namespace Parser

/-- Nothing, or a semicolon and anything. -/
def Closes (rest : List Token) : Prop := ∀ t ts, rest = t :: ts → t = .op .semicolon

section

variable {rest : List Token} (hrest : Closes rest)

/-- The same tokens, followed by `rest`. -/
def Before (rest ts ts' : List Token) : Prop := ts' = ts ++ rest

/-- The same tree, the identities of its nodes moved by the number of the tokens `rest`. -/
def Moved (rest : List Token) (e e' : Expr) : Prop := e' = e.shift rest.length

/-- A parser of expressions reads the same before `rest`. -/
abbrev Stable (rest : List Token) (p p' : ExprParser) : Prop := Sim (Before rest) (Moved rest) p p'

theorem Closes.cases (h : Closes rest) : rest = [] ∨ ∃ ts, rest = .op .semicolon :: ts := by
  rcases rest with _ | ⟨t, ts⟩
  · exact .inl rfl
  · exact .inr ⟨ts, by rw [h t ts rfl]⟩

include hrest

/-! ### `accept_*` and `expect_*` -/

theorem acceptKw_before (k : Keyword) (ts : List Token) :
    acceptKw k (ts ++ rest) = ((acceptKw k ts).1, (acceptKw k ts).2 ++ rest) ∧ (acceptKw k ts).2 <:+ ts := by
  rcases ts with _ | ⟨t, ts⟩
  · refine ⟨?_, List.suffix_refl _⟩
    rcases hrest.cases with rfl | ⟨ts, rfl⟩ <;> rfl
  · cases t with
    | kw k' =>
      simp only [List.cons_append, acceptKw]
      split
      · exact ⟨rfl, List.suffix_cons _ _⟩
      · exact ⟨rfl, List.suffix_refl _⟩
    | _ => exact ⟨rfl, List.suffix_refl _⟩

omit hrest in
theorem expectKw_before {k : Keyword} {ts left : List Token} (h : expectKw k ts = .ok left) :
    ts = .kw k :: left ∧ expectKw k (ts ++ rest) = .ok (left ++ rest) := by
  rcases ts with _ | ⟨t, ts⟩
  · cases h
  · cases t with
    | kw k' =>
      simp only [expectKw] at h
      split at h
      · rename_i heq
        cases h
        subst heq
        exact ⟨rfl, if_pos rfl⟩
      · cases h
    | _ => cases h

omit hrest in
theorem expectOp_before {o : Op} {ts left : List Token} (h : expectOp o ts = .ok left) :
    ts = .op o :: left ∧ expectOp o (ts ++ rest) = .ok (left ++ rest) := by
  rcases ts with _ | ⟨t, ts⟩
  · cases h
  · cases t with
    | op o' =>
      simp only [expectOp] at h
      split at h
      · rename_i heq
        cases h
        subst heq
        exact ⟨rfl, if_pos rfl⟩
      · cases h
    | _ => cases h

omit hrest in
theorem agrees_expectKw {k : Keyword} {ts : List Token} {f f' : List Token → Except ParseError (Expr × List Token)}
    (h : ∀ left, ts = .kw k :: left → Agrees (Before rest) (Moved rest) ts (f left) (f' (left ++ rest))) :
    Agrees (Before rest) (Moved rest) ts (expectKw k ts >>= f) (expectKw k (ts ++ rest) >>= f') := by
  cases hk : expectKw k ts with
  | error e => exact .error
  | ok left =>
    obtain ⟨heq, hk'⟩ : ts = .kw k :: left ∧ expectKw k (ts ++ rest) = .ok (left ++ rest) := expectKw_before hk
    rw [hk']
    exact h left heq

omit hrest in
theorem agrees_expectOp {α : Type} {R : α → α → Prop} {o : Op} {ts : List Token}
    {f f' : List Token → Except ParseError (α × List Token)}
    (h : ∀ left, ts = .op o :: left → Agrees (Before rest) R ts (f left) (f' (left ++ rest))) :
    Agrees (Before rest) R ts (expectOp o ts >>= f) (expectOp o (ts ++ rest) >>= f') := by
  cases ho : expectOp o ts with
  | error e => exact .error
  | ok left =>
    obtain ⟨heq, ho'⟩ : ts = .op o :: left ∧ expectOp o (ts ++ rest) = .ok (left ++ rest) := expectOp_before ho
    rw [ho']
    exact h left heq

/-! ### Left-associative levels -/

theorem binLoop_closes {op? : Token → Option BinaryOp} (hop : op? (.op .semicolon) = none) (sub : ExprParser) (n : Nat)
    (left : Expr) : binLoop op? sub n left rest = .ok (left, rest) := by
  rcases hrest.cases with rfl | ⟨ts, rfl⟩
  · cases n <;> rfl
  · cases n with
    | zero => rfl
    | succ n => simp only [binLoop, hop]

theorem binLoop_stable {op? : Token → Option BinaryOp} (hop : op? (.op .semicolon) = none) {sub sub' : ExprParser}
    (hsub : Stable rest sub sub') {n n' : Nat} {ts : List Token} {left left' : Expr} (hn : ts.length ≤ n)
    (hn' : (ts ++ rest).length ≤ n') (hleft : Moved rest left left') :
    Agrees (Before rest) (Moved rest) ts (binLoop op? sub n left ts) (binLoop op? sub' n' left' (ts ++ rest)) := by
  induction n generalizing n' ts left left' with
  | zero =>
    obtain rfl := List.eq_nil_of_length_eq_zero (Nat.le_zero.1 hn)
    rw [List.nil_append, binLoop_closes hrest hop]
    exact .ok hleft rfl (List.suffix_refl _)
  | succ n ih =>
    rcases ts with _ | ⟨t, ts⟩
    · rw [List.nil_append, binLoop_closes hrest hop]
      exact .ok hleft rfl (List.suffix_refl _)
    · obtain ⟨n', rfl⟩ : ∃ m, n' = m + 1 := Nat.exists_eq_succ_of_ne_zero (by
        rw [List.cons_append, List.length_cons] at hn'
        omega)
      simp only [List.cons_append, binLoop]
      cases op? t with
      | none => exact .ok hleft rfl (List.suffix_refl _)
      | some op =>
        refine (Agrees.bind (hsub ts _ rfl) ?_).mono (List.suffix_cons t ts)
        rintro right right' ts₁ _ hs hright rfl
        have hle : ts₁.length ≤ ts.length := hs.length_le
        rw [List.cons_append, List.length_cons, List.length_append] at hn'
        rw [List.length_cons] at hn
        exact (ih (hle.trans (by omega)) (by rw [List.length_append]; omega) (by rw [hleft, hright]; rfl)).mono hs

theorem parseLeft_stable {op? : Token → Option BinaryOp} (hop : op? (.op .semicolon) = none) {sub sub' : ExprParser}
    (hsub : Stable rest sub sub') : Stable rest (parseLeft op? sub) (parseLeft op? sub') := by
  rintro ts _ rfl
  refine Agrees.bind (hsub ts _ rfl) ?_
  rintro left left' ts₁ _ hs hleft rfl
  exact (binLoop_stable hrest hop hsub (Nat.le_refl _) (Nat.le_refl _) hleft).mono hs

/-! ### The levels -/

theorem parseColumn_before (name : String) (ts : List Token) :
    parseColumn name (ts ++ rest) = ((parseColumn name ts).1, (parseColumn name ts).2 ++ rest) ∧
      (parseColumn name ts).2 <:+ ts ∧ ∃ c t, (parseColumn name ts).1 = .column c t := by
  rcases ts with _ | ⟨t, ts⟩
  · refine ⟨?_, List.suffix_refl _, _, _, rfl⟩
    rcases hrest.cases with rfl | ⟨ts, rfl⟩ <;> rfl
  by_cases hdot : t = .op .dot
  · subst hdot
    rcases ts with _ | ⟨t', ts⟩
    · -- a dot at the end is not taken, nor is one in front of a semicolon
      refine ⟨?_, List.suffix_refl _, _, _, rfl⟩
      rcases hrest.cases with rfl | ⟨ts, rfl⟩ <;> rfl
    · cases t' with
      | ident col => exact ⟨rfl, (List.suffix_cons _ _).trans (List.suffix_cons _ _), _, _, rfl⟩
      | _ => exact ⟨rfl, List.suffix_refl _, _, _, rfl⟩
  · have hkeep : ∀ ts, parseColumn name (t :: ts) = (.column name.toLower none, t :: ts) := by
      intro ts
      unfold parseColumn
      split
      · rename_i heq
        exact absurd (List.cons.inj heq).1 hdot
      · rfl
    rw [List.cons_append, hkeep, hkeep]
    exact ⟨rfl, List.suffix_refl _, _, _, rfl⟩

theorem parseColumn_stable (name : String) (ts : List Token) :
    Agrees (Before rest) (Moved rest) ts (.ok (parseColumn name ts) : Except ParseError _)
      (.ok (parseColumn name (ts ++ rest))) := by
  obtain ⟨heq, hs, c, t, hc⟩ := parseColumn_before hrest name ts
  rw [heq]
  generalize parseColumn name ts = r at hs hc
  obtain ⟨e, left⟩ := r
  exact .ok (by rw [show e = _ from hc]; rfl) rfl hs

section Levels

variable {expr expr' : ExprParser} (hexpr : Stable rest expr expr')

include hexpr

theorem parseCall_stable (name : String) (ts : List Token) :
    Agrees (Before rest) (Moved rest) ts (parseCall expr name ts) (parseCall expr' name (ts ++ rest)) := by
  have hhead : (ts ++ rest).head? = some (.op .star) ↔ ts.head? = some (.op .star) := by
    rcases ts with _ | ⟨t, ts⟩
    · rcases hrest.cases with rfl | ⟨ts, rfl⟩ <;> simp
    · rfl
  simp only [parseCall, hhead]
  split
  · rename_i hstar
    obtain ⟨ts₁, rfl⟩ : ∃ ts₁, ts = .op .star :: ts₁ := by
      rcases ts with _ | ⟨t, ts⟩
      · cases hstar.2
      · exact ⟨ts, by rw [Option.some.inj hstar.2]⟩
    refine Agrees.mono (agrees_expectOp fun left heq => ?_) (List.suffix_cons _ ts₁)
    refine .ok ?_ rfl (heq ▸ List.suffix_cons _ _)
    rw [Moved, Expr.shift, List.length_append]
  · obtain ⟨hkw, hs⟩ := acceptKw_before hrest .DISTINCT ts
    rw [hkw]
    refine Agrees.bind ((hexpr _ _ rfl).mono hs) ?_
    rintro arg arg' ts₁ _ hs₁ harg rfl
    refine Agrees.mono (agrees_expectOp fun left heq => ?_) hs₁
    refine .ok ?_ rfl (heq ▸ List.suffix_cons _ _)
    rw [Moved, Expr.shift, List.length_append, harg]

/-- The column a keyword names. -/
def keywordColumn (k : Keyword) (ts : List Token) : Except ParseError (Expr × List Token) :=
  match k.identOk with
  | some value => .ok (parseColumn value ts)
  | none => .error (.unexpectedKeyword k)

omit hexpr in
theorem keywordColumn_stable (k : Keyword) (ts : List Token) :
    Agrees (Before rest) (Moved rest) ts (keywordColumn k ts) (keywordColumn k (ts ++ rest)) := by
  unfold keywordColumn
  cases k.identOk with
  | none => exact .error
  | some value => exact parseColumn_stable hrest value ts

theorem parsePrimary_stable : Stable rest (parsePrimary expr) (parsePrimary expr') := by
  rintro ts _ rfl
  rcases ts with _ | ⟨t, ts⟩
  · exact .error
  have hcons := List.suffix_cons t ts
  cases t with
  | int n => exact .ok rfl rfl hcons
  | float f => exact .ok rfl rfl hcons
  | str s => exact .ok rfl rfl hcons
  | ident name => exact (parseColumn_stable hrest name ts).mono hcons
  | op o =>
    cases o with
    | lparen =>
      refine Agrees.mono (Agrees.bind (hexpr ts _ rfl) ?_) hcons
      rintro e e' ts₁ _ hs he rfl
      refine Agrees.mono (agrees_expectOp fun left heq => ?_) hs
      exact .ok he rfl (heq ▸ List.suffix_cons _ _)
    | _ => exact .error
  | kw k =>
    by_cases hnull : k = .NULL
    · subst hnull
      exact .ok rfl rfl hcons
    have hident := (keywordColumn_stable hrest k ts).mono hcons
    simp only [List.cons_append, parsePrimary, if_neg hnull]
    cases k.aggregate with
    | none => exact hident
    | some name =>
      rcases ts with _ | ⟨t, ts⟩
      · rcases hrest.cases with rfl | ⟨ts, rfl⟩ <;> exact hident
      · cases t with
        | op o =>
          cases o with
          | lparen => exact (parseCall_stable hrest hexpr name ts).mono ((List.suffix_cons _ _).trans hcons)
          | _ => exact hident
        | _ => exact hident

theorem parseUnary_stable : Stable rest (parseUnary expr) (parseUnary expr') := by
  rintro ts _ rfl
  induction ts with
  | nil => exact .error
  | cons t ts ih =>
    have hprimary := parsePrimary_stable hrest hexpr (t :: ts) _ rfl
    cases t with
    | op o =>
      cases o with
      | minus =>
        refine Agrees.mono (Agrees.bind ih ?_) (List.suffix_cons _ ts)
        rintro e e' ts₁ _ hs he rfl
        exact .ok (by rw [he]; rfl) rfl hs
      | plus => exact ih.mono (List.suffix_cons _ ts)
      | _ => exact hprimary
    | _ => exact hprimary

theorem parseAdditive_stable : Stable rest (parseAdditive expr) (parseAdditive expr') :=
  parseLeft_stable hrest rfl (parseLeft_stable hrest rfl (parseUnary_stable hrest hexpr))

theorem parseItems_stable {n n' : Nat} {ts : List Token} (hn : ts.length ≤ n) (hn' : (ts ++ rest).length ≤ n') :
    Agrees (Before rest) (fun es es' => es' = Expr.shiftItems rest.length es) ts (parseItems expr n ts)
      (parseItems expr' n' (ts ++ rest)) := by
  have hstop : ∀ n, parseItems expr' n rest = .ok ([], rest) := by
    intro n
    rcases hrest.cases with rfl | ⟨ts, rfl⟩ <;> cases n <;> rfl
  induction n generalizing n' ts with
  | zero =>
    obtain rfl := List.eq_nil_of_length_eq_zero (Nat.le_zero.1 hn)
    rw [List.nil_append, hstop]
    exact .ok rfl rfl (List.suffix_refl _)
  | succ n ih =>
    rcases ts with _ | ⟨t, ts⟩
    · rw [List.nil_append, hstop]
      exact .ok rfl rfl (List.suffix_refl _)
    obtain ⟨n', rfl⟩ : ∃ m, n' = m + 1 := Nat.exists_eq_succ_of_ne_zero (by
      rw [List.cons_append, List.length_cons] at hn'
      omega)
    by_cases hcomma : t = .op .comma
    · subst hcomma
      refine Agrees.mono (Agrees.bind (parseAdditive_stable hrest hexpr ts _ rfl) ?_) (List.suffix_cons _ ts)
      rintro e e' ts₁ _ hs he rfl
      have hle : ts₁.length ≤ ts.length := hs.length_le
      rw [List.cons_append, List.length_cons, List.length_append] at hn'
      rw [List.length_cons] at hn
      refine Agrees.mono (Agrees.bind (ih (hle.trans (by omega)) (by rw [List.length_append]; omega)) ?_) hs
      rintro es es' ts₂ _ hs₂ hes rfl
      exact .ok (by rw [hes, he]; rfl) rfl hs₂
    · have hkeep : ∀ (expr : ExprParser) n ts, parseItems expr n (t :: ts) = .ok ([], t :: ts) := by
        intro expr n ts
        unfold parseItems
        split
        · rename_i heq
          exact absurd (List.cons.inj heq).1 hcomma
        · rfl
      rw [List.cons_append, hkeep, hkeep]
      exact .ok rfl rfl (List.suffix_refl _)

omit hexpr in
theorem parseIs_stable {left left' : Expr} (hleft : Moved rest left left') (ts : List Token) :
    Agrees (Before rest) (Moved rest) ts (parseIs left ts) (parseIs left' (ts ++ rest)) := by
  obtain ⟨hkw, hs⟩ := acceptKw_before hrest .NOT ts
  simp only [parseIs, hkw]
  refine Agrees.mono (agrees_expectKw fun ts₁ heq => ?_) hs
  exact .ok (by rw [hleft]; rfl) rfl (heq ▸ List.suffix_cons _ _)

/-- A comparison, or none. -/
def parseComparison (expr : List Token → Except ParseError (Expr × List Token)) (left : Expr) (negated : Bool) (t : Token)
    (ts : List Token) : Except ParseError (Expr × List Token) :=
  if negated then .error .danglingNot
  else match cmpOp t with
    | some op => do
      let (right, ts) ← parseAdditive expr ts
      return (.binop op left right, ts)
    | none => .ok (left, t :: ts)

theorem parseComparison_stable {left left' : Expr} (hleft : Moved rest left left') (negated : Bool) (t : Token) (ts : List Token) :
    Agrees (Before rest) (Moved rest) (t :: ts) (parseComparison expr left negated t ts)
      (parseComparison expr' left' negated t (ts ++ rest)) := by
  have hadd := parseAdditive_stable hrest hexpr
  unfold parseComparison
  split
  · exact .error
  cases cmpOp t with
  | none => exact .ok hleft rfl (List.suffix_refl _)
  | some op =>
    refine Agrees.mono (Agrees.bind (hadd ts _ rfl) ?_) (List.suffix_cons t ts)
    rintro right right' ts₁ _ hs hright rfl
    exact .ok (by rw [hleft, hright]; rfl) rfl hs

theorem parseNegatable_stable {left left' : Expr} (hleft : Moved rest left left') (negated : Bool) (ts : List Token) :
    Agrees (Before rest) (Moved rest) ts (parseNegatable expr left negated ts)
      (parseNegatable expr' left' negated (ts ++ rest)) := by
  have hadd := parseAdditive_stable hrest hexpr
  rcases ts with _ | ⟨t, ts⟩
  · cases negated with
    | true => exact .error
    | false => rcases hrest.cases with rfl | ⟨ts, rfl⟩ <;> exact .ok hleft rfl (List.suffix_refl _)
  have hcons := List.suffix_cons t ts
  have hother := parseComparison_stable hrest hexpr hleft negated t ts
  cases t with
  | kw k =>
    cases k with
    | BETWEEN =>
      refine Agrees.mono (Agrees.bind (hadd ts _ rfl) ?_) hcons
      rintro lo lo' ts₁ _ hs hlo rfl
      refine Agrees.mono (agrees_expectKw fun ts₂ heq => ?_) hs
      refine Agrees.mono (Agrees.bind (hadd ts₂ _ rfl) ?_) (heq ▸ List.suffix_cons _ _)
      rintro hi hi' ts₃ _ hs₃ hhi rfl
      exact .ok (by rw [hleft, hlo, hhi]; rfl) rfl hs₃
    | IN =>
      refine Agrees.mono (agrees_expectOp fun ts₁ heq => ?_) hcons
      refine Agrees.mono (Agrees.bind (hadd ts₁ _ rfl) ?_) (heq ▸ List.suffix_cons _ _)
      rintro item item' ts₂ _ hs₂ hitem rfl
      refine Agrees.mono (Agrees.bind (parseItems_stable hrest hexpr (Nat.le_refl _) (Nat.le_refl _)) ?_) hs₂
      rintro items items' ts₃ _ hs₃ hitems rfl
      refine Agrees.mono (agrees_expectOp fun ts₄ heq => ?_) hs₃
      exact .ok (by rw [hleft, hitem, hitems]; rfl) rfl (heq ▸ List.suffix_cons _ _)
    | LIKE =>
      refine Agrees.mono (Agrees.bind (hadd ts _ rfl) ?_) hcons
      rintro pattern pattern' ts₁ _ hs hpattern rfl
      exact .ok (by rw [hleft, hpattern]; rfl) rfl hs
    | _ => exact hother
  | _ => exact hother

theorem parsePredicate_stable : Stable rest (parsePredicate expr) (parsePredicate expr') := by
  rintro ts _ rfl
  refine Agrees.bind (parseAdditive_stable hrest hexpr ts _ rfl) ?_
  rintro left left' ts₁ _ hs hleft rfl
  refine Agrees.mono ?_ hs
  have hneg : Agrees (Before rest) (Moved rest) ts₁
      (parseNegatable expr left (acceptKw .NOT ts₁).1 (acceptKw .NOT ts₁).2)
      (parseNegatable expr' left' (acceptKw .NOT (ts₁ ++ rest)).1 (acceptKw .NOT (ts₁ ++ rest)).2) := by
    obtain ⟨hkw, hs₁⟩ := acceptKw_before hrest .NOT ts₁
    rw [hkw]
    exact (parseNegatable_stable hrest hexpr hleft _ _).mono hs₁
  rcases ts₁ with _ | ⟨t, ts₁⟩
  · rcases hrest.cases with rfl | ⟨ts, rfl⟩ <;> exact hneg
  · cases t with
    | kw k =>
      cases k with
      | IS => exact (parseIs_stable hrest hleft ts₁).mono (List.suffix_cons _ _)
      | _ => exact hneg
    | _ => exact hneg

theorem parseNot_stable : Stable rest (parseNot expr) (parseNot expr') := by
  rintro ts _ rfl
  induction ts with
  | nil =>
    have hpredicate := parsePredicate_stable hrest hexpr [] _ rfl
    rcases hrest.cases with rfl | ⟨ts, rfl⟩ <;> exact hpredicate
  | cons t ts ih =>
    have hpredicate := parsePredicate_stable hrest hexpr (t :: ts) _ rfl
    cases t with
    | kw k =>
      cases k with
      | NOT =>
        refine Agrees.mono (Agrees.bind ih ?_) (List.suffix_cons _ ts)
        rintro e e' ts₁ _ hs he rfl
        exact .ok (by rw [he]; rfl) rfl hs
      | _ => exact hpredicate
    | _ => exact hpredicate

theorem parseOr_stable : Stable rest (parseOr expr) (parseOr expr') :=
  parseLeft_stable hrest rfl (parseLeft_stable hrest rfl (parseNot_stable hrest hexpr))

end Levels

theorem parseNested_stable {n n' : Nat} (h : n ≤ n') : Stable rest (parseNested n) (parseNested n') := by
  induction n generalizing n' with
  | zero =>
    intro ts ts' _
    exact .error
  | succ n ih =>
    obtain ⟨n', rfl⟩ : ∃ m, n' = m + 1 := Nat.exists_eq_succ_of_ne_zero (by omega)
    exact parseOr_stable hrest (ih (Nat.le_of_succ_le_succ h))

/-- What an expression is read from is read as the same expression when a semicolon follows. -/
theorem parseExpression_stable : Stable rest parseExpression parseExpression := by
  rintro ts _ rfl
  exact parseNested_stable hrest (by rw [List.length_append]; omega) ts _ rfl

end

end Parser

end LeafDb
