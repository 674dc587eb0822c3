import LeafDb.Sql.Parse

/-!
# Printing an expression and parsing it back

`printAt p e` is `e` as an operand of level `p`: in parentheses if it binds looser than that. What follows
an expression must not continue it at its level or at a tighter one (`Follows`). For every expression and
level the parser of the level reads the printed tokens back (`ReadsBack`); at a left-associative level it
stops in its loop with the expression as the left operand (`Loops`), which is what carries the induction.
-/

namespace LeafDb

namespace BinaryOp

/-- OR < AND < NOT < predicate < additive < multiplicative < unary < primary. -/
def level : BinaryOp → Nat
  | or => 0
  | and => 1
  | add | sub => 4
  | mul | div => 5
  | _ => 3

def token : BinaryOp → Token
  | or => .kw .OR
  | and => .kw .AND
  | eq => .op .eq
  | ne => .op .ltGt
  | lt => .op .lt
  | le => .op .le
  | gt => .op .gt
  | ge => .op .ge
  | add => .op .plus
  | sub => .op .minus
  | mul => .op .star
  | div => .op .slash

end BinaryOp

namespace Expr

def level : Expr → Nat
  | binop op _ _ => op.level
  | unary .not _ => 2
  | unary .neg _ => 6
  | isNull .. | between .. | inList .. | like .. => 3
  | literal _ | column .. | func .. => 7

/-- The tokens `ts` of an expression of level `q` as an operand of level `p`. -/
def parens (p q : Nat) (ts : List Token) : List Token :=
  if q < p then .op .lparen :: ts ++ [.op .rparen] else ts

/-- The keyword of an aggregate. -/
def aggregateKw : String → Keyword
  | "SUM" => .SUM
  | "AVG" => .AVG
  | "MIN" => .MIN
  | "MAX" => .MAX
  | _ => .COUNT

def notTokens (negated : Bool) : List Token := if negated then [.kw .NOT] else []

mutual

/-- The tokens of an expression, without parentheses around it. -/
def tokens : Expr → List Token
  | literal (.int i) => [.int i.toNat]
  | literal (.float f) => [.float f]
  | literal (.str s) => [.str s]
  | literal _ => [.kw .NULL]
  | column name none => [.ident name]
  | column name (some table) => [.ident table, .op .dot, .ident name]
  | func _ name none _ _ => [.kw (aggregateKw name), .op .lparen, .op .star, .op .rparen]
  | func _ name (some e) _ distinct =>
    .kw (aggregateKw name) :: .op .lparen ::
      ((if distinct then [.kw .DISTINCT] else []) ++ (tokens e ++ [.op .rparen]))
  | isNull e negated => parens 4 e.level (tokens e) ++ .kw .IS :: (notTokens negated ++ [.kw .NULL])
  | between e lo hi negated =>
    parens 4 e.level (tokens e) ++ (notTokens negated ++
      .kw .BETWEEN :: (parens 4 lo.level (tokens lo) ++ .kw .AND :: parens 4 hi.level (tokens hi)))
  | inList e items negated =>
    parens 4 e.level (tokens e) ++ (notTokens negated ++
      .kw .IN :: .op .lparen :: ((itemTokens items).tail ++ [.op .rparen]))
  | like e pattern negated =>
    parens 4 e.level (tokens e) ++ (notTokens negated ++ .kw .LIKE :: parens 4 pattern.level (tokens pattern))
  | unary .not e => .kw .NOT :: parens 2 e.level (tokens e)
  | unary .neg e => .op .minus :: parens 6 e.level (tokens e)
  | binop op l r =>
    parens (if op.level = 3 then 4 else op.level) l.level (tokens l) ++
      op.token :: parens (op.level + 1) r.level (tokens r)

/-- Items, each behind a comma. -/
def itemTokens : List Expr → List Token
  | [] => []
  | e :: es => .op .comma :: (parens 4 e.level (tokens e) ++ itemTokens es)

end

/-- `e` as an operand of level `p`. -/
def printAt (p : Nat) (e : Expr) : List Token := parens p e.level e.tokens

mutual

/-- The expressions of the grammar: literals that are not negative, lower-case names, aggregate calls as
they can be written, lists with an item. -/
def Printable : Expr → Prop
  | literal (.int i) => 0 ≤ i
  | literal (.float f) => f.isNeg = false
  | literal (.bool _) => False
  | literal _ => True
  | column name none => name.toLower = name
  | column _ (some table) => table.toLower = table
  | func _ name none star distinct => name = "COUNT" ∧ star = true ∧ distinct = false
  | func _ name (some e) star _ => (aggregateKw name).aggregate = some name ∧ star = false ∧ Printable e
  | isNull e _ => Printable e
  | between e lo hi _ => Printable e ∧ Printable lo ∧ Printable hi
  | inList e items _ => Printable e ∧ items ≠ [] ∧ PrintableItems items
  | like e pattern _ => Printable e ∧ Printable pattern
  | unary _ e => Printable e
  | binop _ l r => Printable l ∧ Printable r

def PrintableItems : List Expr → Prop
  | [] => True
  | e :: es => Printable e ∧ PrintableItems es

end

mutual

/-- The tree without the identities of its nodes. -/
def shape : Expr → Expr
  | literal v => literal v
  | column name table => column name table
  | func _ name none star distinct => func 0 name none star distinct
  | func _ name (some e) star distinct => func 0 name (some (shape e)) star distinct
  | isNull e negated => isNull (shape e) negated
  | between e lo hi negated => between (shape e) (shape lo) (shape hi) negated
  | inList e items negated => inList (shape e) (shapes items) negated
  | like e pattern negated => like (shape e) (shape pattern) negated
  | unary op e => unary op (shape e)
  | binop op l r => binop op (shape l) (shape r)

def shapes : List Expr → List Expr
  | [] => []
  | e :: es => shape e :: shapes es

end

end Expr

namespace Parser

open LeafDb.Expr

/-- The loosest level at which what follows continues an expression. -/
def contLevel : List Token → Option Nat
  | .kw .OR :: _ => some 0
  | .kw .AND :: _ => some 1
  | .kw .IS :: _ | .kw .NOT :: _ | .kw .BETWEEN :: _ | .kw .IN :: _ | .kw .LIKE :: _ => some 3
  | .op .eq :: _ | .op .ltGt :: _ | .op .bangEq :: _ | .op .le :: _ | .op .ge :: _ | .op .lt :: _ | .op .gt :: _ => some 3
  | .op .plus :: _ | .op .minus :: _ => some 4
  | .op .star :: _ | .op .slash :: _ => some 5
  | .op .dot :: .ident _ :: _ => some 7
  | _ => none

/-- What follows does not continue an operand of level `p`. -/
def Follows (p : Nat) (rest : List Token) : Prop := ∀ l, contLevel rest = some l → l < p

theorem Follows.mono {p q : Nat} {rest : List Token} (h : Follows p rest) (hpq : p ≤ q) : Follows q rest :=
  fun l hl => (h l hl).trans_le hpq

/-- The parser of a level, with `n` levels of parentheses. -/
def parseAt (p n : Nat) : ExprParser :=
  match p with
  | 0 => parseOr (parseNested n)
  | 1 => parseAnd (parseNested n)
  | 2 => parseNot (parseNested n)
  | 3 => parsePredicate (parseNested n)
  | 4 => parseAdditive (parseNested n)
  | 5 => parseMultiplicative (parseNested n)
  | 6 => parseUnary (parseNested n)
  | _ => parsePrimary (parseNested n)

/-- The operators of a left-associative level. -/
def opsAt : Nat → Token → Option BinaryOp
  | 0 => orOp
  | 1 => andOp
  | 4 => addOp
  | 5 => mulOp
  | _ => fun _ => none

def LeftAssoc (p : Nat) : Prop := p = 0 ∨ p = 1 ∨ p = 4 ∨ p = 5

theorem LeftAssoc.lt {p : Nat} (hp : LeftAssoc p) : p < 7 := by
  unfold LeftAssoc at hp
  omega

theorem parseAt_left {p : Nat} (hp : LeftAssoc p) (n : Nat) (ts : List Token) :
    parseAt p n ts = parseLeft (opsAt p) (parseAt (p + 1) n) ts := by
  rcases hp with rfl | rfl | rfl | rfl <;> rfl

/-- The parser of level `p` reads `e` back. -/
def ReadsBack (p : Nat) (e : Expr) : Prop :=
  ∀ (n : Nat) (rest : List Token), Follows p rest → (printAt p e).length ≤ n →
    ∃ e', e'.shape = e.shape ∧ parseAt p n (printAt p e ++ rest) = .ok (e', rest)

/-- The parser of the left-associative level `p` is in its loop with `e` as the left operand. -/
def Loops (p : Nat) (e : Expr) : Prop :=
  ∀ (n : Nat) (rest : List Token), Follows (p + 1) rest → (printAt p e).length ≤ n →
    ∃ e' k, e'.shape = e.shape ∧ rest.length ≤ k ∧
      parseAt p n (printAt p e ++ rest) = binLoop (opsAt p) (parseAt (p + 1) n) k e' rest

/-! ### The loops -/

theorem contLevel_of_opsAt {p : Nat} {t : Token} {op : BinaryOp} (h : opsAt p t = some op) (ts : List Token) :
    contLevel (t :: ts) = some p := by
  unfold opsAt at h
  split at h
  · unfold orOp at h
    split at h
    · rfl
    · cases h
  · unfold andOp at h
    split at h
    · rfl
    · cases h
  · unfold addOp at h
    split at h
    · rfl
    · rfl
    · cases h
  · unfold mulOp at h
    split at h
    · rfl
    · rfl
    · cases h
  · cases h

theorem binLoop_stop {p k : Nat} {sub : ExprParser} {rest : List Token} (h : Follows p rest) (e : Expr) :
    binLoop (opsAt p) sub k e rest = .ok (e, rest) := by
  rcases k with _ | k
  · rfl
  rcases rest with _ | ⟨t, ts⟩
  · rfl
  rw [binLoop]
  cases hop : opsAt p t with
  | none => rfl
  | some op => exact absurd (h p (contLevel_of_opsAt hop ts)) (Nat.lt_irrefl p)

theorem printAt_level (e : Expr) : printAt e.level e = e.tokens := if_neg (Nat.lt_irrefl _)

theorem printAt_succ {p : Nat} {e : Expr} (h : e.level ≠ p) : printAt (p + 1) e = printAt p e := by
  unfold printAt parens
  by_cases hlt : e.level < p
  · rw [if_pos hlt, if_pos (by omega)]
  · rw [if_neg hlt, if_neg (by omega)]

theorem Loops.of_readsBack {p : Nat} {e : Expr} (hp : LeftAssoc p) (hne : e.level ≠ p) (h : ReadsBack (p + 1) e) :
    Loops p e := by
  intro n rest hf hn
  rw [← printAt_succ hne] at hn ⊢
  obtain ⟨e', hs, he⟩ := h n rest hf hn
  refine ⟨e', rest.length, hs, Nat.le_refl _, ?_⟩
  rw [parseAt_left hp, parseLeft, he]
  rfl

theorem Loops.readsBack {p : Nat} {e : Expr} (h : Loops p e) : ReadsBack p e := by
  intro n rest hf hn
  obtain ⟨e', k, hs, -, he⟩ := h n rest (hf.mono (Nat.le_succ p)) hn
  exact ⟨e', hs, he.trans (binLoop_stop hf e')⟩

theorem opsAt_token {op : BinaryOp} (h : LeftAssoc op.level) : opsAt op.level op.token = some op := by
  rcases op <;> first | rfl | simp [LeftAssoc, BinaryOp.level] at h

/-- One round of the loop. -/
theorem Loops.binop {op : BinaryOp} {l r : Expr} (hp : LeftAssoc op.level) (hl : Loops op.level l)
    (hr : ReadsBack (op.level + 1) r) : Loops op.level (.binop op l r) := by
  have hprint : printAt op.level (.binop op l r) =
      printAt op.level l ++ op.token :: printAt (op.level + 1) r := by
    have h3 : op.level ≠ 3 := by
      unfold LeftAssoc at hp
      omega
    rw [show printAt op.level (.binop op l r) = (Expr.binop op l r).tokens from printAt_level _, tokens, if_neg h3]
    rfl
  intro n rest hf hn
  rw [hprint] at hn ⊢
  simp only [List.length_append, List.length_cons] at hn
  have hop := opsAt_token hp
  obtain ⟨l', k, hsl, hk, hpl⟩ := hl n (op.token :: (printAt (op.level + 1) r ++ rest))
    (fun q hq => by
      rw [contLevel_of_opsAt hop] at hq
      cases hq
      exact Nat.lt_succ_self _) (by omega)
  obtain ⟨r', hsr, hpr⟩ := hr n rest hf (by omega)
  rcases k with _ | k
  · simp at hk
  refine ⟨.binop op l' r', k, by rw [shape, shape, hsl, hsr], ?_, ?_⟩
  · simp only [List.length_cons, List.length_append] at hk
    omega
  · rw [List.append_assoc, List.cons_append, hpl, binLoop, hop]
    simp only [hpr, bind, Except.bind]

/-! ### The first token -/

/-- The tokens an operand of level `p` begins with. -/
def Starts (p : Nat) : Token → Prop
  | .kw .NOT => p ≤ 2
  | .op .minus => p ≤ 6
  | .kw k => k = .NULL ∨ k.aggregate.isSome
  | .op o => o = .lparen
  | _ => True

theorem Starts.mono {p q : Nat} {t : Token} (h : Starts q t) (hpq : p ≤ q) : Starts p t := by
  unfold Starts at *
  split at h
  · exact hpq.trans h
  · exact hpq.trans h
  · exact h
  · exact h
  · trivial

theorem parens_starts {p q : Nat} {ts : List Token} (h : ∃ t ts', ts = t :: ts' ∧ Starts q t) :
    ∃ t ts', parens p q ts = t :: ts' ∧ Starts p t := by
  obtain ⟨t, ts', rfl, ht⟩ := h
  unfold parens
  split
  · exact ⟨_, _, rfl, rfl⟩
  · exact ⟨t, ts', rfl, ht.mono (by omega)⟩

theorem append_starts {p q : Nat} {ts : List Token} (h : ∃ t ts', ts = t :: ts' ∧ Starts q t) (hpq : p ≤ q)
    (more : List Token) : ∃ t ts', ts ++ more = t :: ts' ∧ Starts p t := by
  obtain ⟨t, ts', rfl, ht⟩ := h
  exact ⟨t, ts' ++ more, rfl, ht.mono hpq⟩

theorem aggregate_aggregateKw (name : String) : (aggregateKw name).aggregate.isSome := by
  unfold aggregateKw
  split <;> rfl

theorem tokens_starts : (e : Expr) → ∃ t ts, e.tokens = t :: ts ∧ Starts e.level t
  | .literal v => by
    rcases v with _ | b | i | f | s
    · exact ⟨_, _, rfl, .inl rfl⟩
    · exact ⟨_, _, rfl, .inl rfl⟩
    all_goals exact ⟨_, _, rfl, trivial⟩
  | .column name table => by
    rcases table with _ | table <;> exact ⟨_, _, rfl, trivial⟩
  | .func _ name arg _ _ => by
    have hstart : ∀ k : Keyword, k.aggregate.isSome → Starts 7 (.kw k) := by
      intro k hk
      rcases k <;> first | exact .inr hk | cases hk
    rcases arg with _ | e <;> exact ⟨_, _, by rw [tokens], hstart _ (aggregate_aggregateKw name)⟩
  | .isNull e _ => by
    rw [tokens]
    exact append_starts (parens_starts (tokens_starts e)) (by decide : 3 ≤ 4) _
  | .between e _ _ _ => by
    rw [tokens]
    exact append_starts (parens_starts (tokens_starts e)) (by decide : 3 ≤ 4) _
  | .inList e _ _ => by
    rw [tokens]
    exact append_starts (parens_starts (tokens_starts e)) (by decide : 3 ≤ 4) _
  | .like e _ _ => by
    rw [tokens]
    exact append_starts (parens_starts (tokens_starts e)) (by decide : 3 ≤ 4) _
  | .unary .not _ => ⟨.kw .NOT, _, by rw [tokens], Nat.le_refl 2⟩
  | .unary .neg _ => ⟨.op .minus, _, by rw [tokens], Nat.le_refl 6⟩
  | .binop op l _ => by
    rw [tokens]
    refine append_starts (parens_starts (tokens_starts l)) ?_ _
    change op.level ≤ _
    split <;> omega

theorem printAt_starts (p : Nat) (e : Expr) : ∃ t ts, printAt p e = t :: ts ∧ Starts p t :=
  parens_starts (tokens_starts e)

/-! ### From a level to a looser one -/

theorem parseTail_stop {rest : List Token} (h : Follows 3 rest) (expr : ExprParser) (e : Expr) :
    parseTail expr e rest = .ok (e, rest) := by
  rcases rest with _ | ⟨t, ts⟩
  · rfl
  rcases t with n | f | s | k | name | o
  · rfl
  · rfl
  · rfl
  · rcases k <;> first | rfl | exact absurd (h 3 rfl) (by decide)
  · rfl
  · rcases o <;> first | rfl | exact absurd (h 3 rfl) (by decide)

theorem parseNot_of_starts {t : Token} (h : Starts 3 t) (expr : ExprParser) (ts : List Token) :
    parseNot expr (t :: ts) = parsePredicate expr (t :: ts) := by
  rw [parseNot]
  rintro ts' ⟨⟩
  exact absurd h (by decide : ¬3 ≤ 2)

theorem parseUnary_of_starts {t : Token} (h : Starts 7 t) (expr : ExprParser) (ts : List Token) :
    parseUnary expr (t :: ts) = parsePrimary expr (t :: ts) := by
  rw [parseUnary]
  · rintro ts' ⟨⟩
    exact absurd h (by decide : ¬7 ≤ 6)
  · rintro ts' ⟨⟩
    cases h

/-- An operand of a level that its own level is not. -/
theorem ReadsBack.down {p : Nat} {e : Expr} (hp : p < 7) (hne : e.level ≠ p) (h : ReadsBack (p + 1) e) :
    ReadsBack p e := by
  by_cases hleft : LeftAssoc p
  · exact (Loops.of_readsBack hleft hne h).readsBack
  intro n rest hf hn
  rw [← printAt_succ hne] at hn ⊢
  obtain ⟨e', hs, he⟩ := h n rest (hf.mono (Nat.le_succ p)) hn
  obtain ⟨t, ts, hprint, ht⟩ := printAt_starts (p + 1) e
  refine ⟨e', hs, ?_⟩
  rw [hprint] at he ⊢
  obtain rfl | rfl | rfl : p = 2 ∨ p = 3 ∨ p = 6 := by
    unfold LeftAssoc at hleft
    omega
  · exact (parseNot_of_starts ht _ _).trans he
  · change parsePredicate _ _ = _
    rw [parsePredicate]
    change parseAdditive _ _ = _ at he
    rw [he]
    exact parseTail_stop hf _ e'
  · exact (parseUnary_of_starts ht _ _).trans he

theorem ReadsBack.down_to {p q : Nat} {e : Expr} (h : ReadsBack q e) (hpq : p ≤ q) (hq : q ≤ 7)
    (hne : ∀ r, p ≤ r → r < q → e.level ≠ r) : ReadsBack p e := by
  induction hpq using Nat.decreasingInduction with
  | self => exact h
  | of_succ k hk ih => exact (ih fun r hr hlt => hne r (by omega) hlt).down (by omega) (hne k (Nat.le_refl k) hk)

/-- In parentheses an expression is an operand of any level. -/
theorem ReadsBack.paren {e : Expr} (hl : e.level < 7) (h : ReadsBack 0 e) : ReadsBack 7 e := by
  have h0 : printAt 0 e = e.tokens := rfl
  have h7 : printAt 7 e = .op .lparen :: e.tokens ++ [.op .rparen] := if_pos hl
  intro n rest _ hn
  rw [h7] at hn ⊢
  rcases n with _ | n
  · simp at hn
  obtain ⟨e', hs, he⟩ := h n (.op .rparen :: rest) (fun l hl => by cases hl) (by
    simp only [List.length_append, List.length_cons] at hn
    rw [h0]
    omega)
  refine ⟨e', hs, ?_⟩
  change parsePrimary (parseNested (n + 1)) (.op .lparen :: (e.tokens ++ [.op .rparen] ++ rest)) = _
  rw [List.append_assoc, parsePrimary]
  change (parseNested (n + 1) (e.tokens ++ .op .rparen :: rest) >>= _) = _
  rw [parseNested]
  rw [h0] at he
  change parseOr _ _ = _ at he
  rw [he]
  rfl

/-! ### Each constructor at its own level -/

/-- What the induction carries. -/
structure Readable (e : Expr) : Prop where
  readsBack : ∀ p, p ≤ 7 → ReadsBack p e
  loops : ∀ p, LeftAssoc p → Loops p e

theorem level_le (e : Expr) : e.level ≤ 7 := by
  rcases e with _ | _ | _ | _ | _ | _ | _ | op | op
  case unary => rcases op <;> exact Nat.le_of_ble_eq_true rfl
  case binop => rcases op <;> exact Nat.le_of_ble_eq_true rfl
  all_goals exact Nat.le_of_ble_eq_true rfl

/-- An expression that its own level reads back is read back at every level. -/
theorem ReadsBack.all {e : Expr} (h : ReadsBack e.level e) {p : Nat} (hp : p ≤ 7) : ReadsBack p e := by
  by_cases hle : p ≤ e.level
  · exact h.down_to hle (level_le e) fun r _ hlt => Nat.ne_of_gt hlt
  · have h0 : ReadsBack 0 e := h.down_to (Nat.zero_le _) (level_le e) fun r _ hlt => Nat.ne_of_gt hlt
    exact (h0.paren (by omega)).down_to hp (Nat.le_refl 7) fun r hr _ => by omega

theorem Readable.of_readsBack {e : Expr} (h : ReadsBack e.level e) (hne : ¬LeftAssoc e.level) : Readable e where
  readsBack _ hp := h.all hp
  loops _ hp := .of_readsBack hp (fun he => hne (he ▸ hp)) (h.all hp.lt)

theorem Readable.of_loops {e : Expr} (h : Loops e.level e) : Readable e where
  readsBack _ hp := h.readsBack.all hp
  loops p hp := by
    by_cases he : e.level = p
    · exact he ▸ h
    · exact .of_readsBack hp he (h.readsBack.all hp.lt)

theorem not_leftAssoc {p : Nat} (h : p = 2 ∨ p = 3 ∨ p = 6 ∨ p = 7) : ¬LeftAssoc p := by
  unfold LeftAssoc
  omega

theorem readable_literal {v : Value} (h : (Expr.literal v).Printable) : Readable (.literal v) := by
  refine .of_readsBack (fun n rest _ _ => ⟨.literal v, rfl, ?_⟩) (not_leftAssoc (.inr (.inr (.inr rfl))))
  rw [printAt_level]
  rcases v with _ | b | i | f | s
  · rfl
  · exact h.elim
  · change Except.ok (Expr.literal (.int i.toNat), rest) = _
    rw [Int.toNat_of_nonneg h]
  · rfl
  · rfl

theorem parseColumn_stop {rest : List Token} (h : Follows 7 rest) (name : String) :
    parseColumn name rest = (.column name.toLower none, rest) := by
  rw [parseColumn]
  rintro col ts rfl
  exact absurd (h 7 rfl) (by decide)

theorem readable_column {name : String} {table : Option String} (h : (Expr.column name table).Printable) :
    Readable (.column name table) := by
  refine .of_readsBack (fun n rest hf _ => ⟨.column name table, rfl, ?_⟩) (not_leftAssoc (.inr (.inr (.inr rfl))))
  rw [printAt_level]
  rcases table with _ | table
  · change Except.ok (parseColumn name rest) = _
    rw [parseColumn_stop hf, show name.toLower = name from h]
  · change Except.ok (Expr.column name (some table.toLower), rest) = _
    rw [show table.toLower = table from h]

/-- An aggregate call is read by `parseCall`. -/
theorem parsePrimary_call {name : String} (h : (aggregateKw name).aggregate = some name) (expr : ExprParser) (ts : List Token) :
    parsePrimary expr (.kw (aggregateKw name) :: .op .lparen :: ts) = parseCall expr name ts := by
  have hnull : aggregateKw name ≠ .NULL := by
    intro hnull
    rw [hnull] at h
    cases h
  simp only [parsePrimary, if_neg hnull, h]

theorem readable_countStar (id : Nat) : Readable (.func id "COUNT" none true false) := by
  refine .of_readsBack (fun n rest _ _ => ?_) (not_leftAssoc (.inr (.inr (.inr rfl))))
  refine ⟨.func (Token.op .star :: .op .rparen :: rest).length "COUNT" none true false, ?_, ?_⟩
  · rw [shape, shape]
  · rw [printAt_level, tokens]
    have h7 : parseAt (Expr.func id "COUNT" none true false).level n = parsePrimary (parseNested n) := rfl
    rw [h7, List.cons_append, List.cons_append, parsePrimary_call rfl]
    rfl

theorem acceptKw_distinct {t : Token} (h : Starts 0 t) (ts : List Token) :
    acceptKw .DISTINCT (t :: ts) = (false, t :: ts) := by
  rcases t with n | f | s | k | name | o
  · rfl
  · rfl
  · rfl
  · rcases k <;> first | rfl | (rcases h with h | h <;> cases h)
  · rfl
  · rfl

theorem readable_func (id : Nat) {name : String} {e : Expr} (distinct : Bool)
    (hname : (aggregateKw name).aggregate = some name) (he : Readable e) :
    Readable (.func id name (some e) false distinct) := by
  refine .of_readsBack (fun n rest _ hn => ?_) (not_leftAssoc (.inr (.inr (.inr rfl))))
  rw [printAt_level, tokens] at hn ⊢
  simp only [List.length_append, List.length_cons] at hn
  rcases n with _ | n
  · omega
  obtain ⟨e', hs, hpe⟩ := he.readsBack 0 (Nat.zero_le 7) n (.op .rparen :: rest) (fun l hl => by cases hl)
    (by rw [show printAt 0 e = e.tokens from rfl]; omega)
  change parseNested (n + 1) (e.tokens ++ _) = _ at hpe
  obtain ⟨t, ts, htok, ht⟩ := printAt_starts 0 e
  change e.tokens = t :: ts at htok
  have h7 : parseAt (Expr.func id name (some e) false distinct).level (n + 1) = parsePrimary (parseNested (n + 1)) := rfl
  rw [h7, List.cons_append, List.cons_append, parsePrimary_call hname, parseCall, List.append_assoc, List.append_assoc]
  have hstar : ¬(name = "COUNT" ∧
      ((if distinct then [Token.kw .DISTINCT] else []) ++ (e.tokens ++ ([Token.op .rparen] ++ rest))).head? =
        some (.op .star)) := by
    rintro ⟨-, hhead⟩
    rw [htok] at hhead
    rcases distinct
    · obtain rfl : t = .op .star := Option.some.inj hhead
      cases ht
    · cases hhead
  have haccept : acceptKw .DISTINCT
      ((if distinct then [Token.kw .DISTINCT] else []) ++ (e.tokens ++ ([Token.op .rparen] ++ rest))) =
      (distinct, e.tokens ++ .op .rparen :: rest) := by
    rcases distinct
    · rw [htok]
      exact acceptKw_distinct ht _
    · rfl
  rw [if_neg hstar, haccept]
  simp only [hpe, bind, Except.bind]
  exact ⟨_, by rw [shape, shape, hs], rfl⟩

theorem readable_unary {op : UnOp} {e : Expr} (he : Readable e) : Readable (.unary op e) := by
  rcases op
  · refine .of_readsBack (fun n rest hf hn => ?_) (not_leftAssoc (.inl rfl))
    rw [printAt_level, tokens] at hn ⊢
    obtain ⟨e', hs, hpe⟩ := he.readsBack 2 (by decide) n rest hf (Nat.le_of_succ_le hn)
    refine ⟨.unary .not e', by rw [shape, shape, hs], ?_⟩
    change (parseNot _ (printAt 2 e ++ rest) >>= _) = _
    change parseNot _ _ = _ at hpe
    rw [hpe]
    rfl
  · refine .of_readsBack (fun n rest hf hn => ?_) (not_leftAssoc (.inr (.inr (.inl rfl))))
    rw [printAt_level, tokens] at hn ⊢
    obtain ⟨e', hs, hpe⟩ := he.readsBack 6 (by decide) n rest hf (Nat.le_of_succ_le hn)
    refine ⟨.unary .neg e', by rw [shape, shape, hs], ?_⟩
    change (parseUnary _ (printAt 6 e ++ rest) >>= _) = _
    change parseUnary _ _ = _ at hpe
    rw [hpe]
    rfl

/-! ### Predicates -/

/-- A predicate is read up to its left operand. -/
theorem parsePredicate_left {e : Expr} (he : Readable e) {n : Nat} {r : List Token} (hf : Follows 4 r)
    (hn : (printAt 4 e).length ≤ n) : ∃ e', e'.shape = e.shape ∧
      parsePredicate (parseNested n) (printAt 4 e ++ r) = parseTail (parseNested n) e' r := by
  obtain ⟨e', hs, hpe⟩ := he.readsBack 4 (by decide) n r hf hn
  refine ⟨e', hs, ?_⟩
  change parseAdditive _ _ = _ at hpe
  rw [parsePredicate, hpe]
  rfl

theorem readable_isNull {e : Expr} (negated : Bool) (he : Readable e) : Readable (.isNull e negated) := by
  refine .of_readsBack (fun n rest _ hn => ?_) (not_leftAssoc (.inr (.inl rfl)))
  rw [printAt_level, tokens] at hn ⊢
  rw [List.length_append] at hn
  obtain ⟨e', hs, hpe⟩ := parsePredicate_left he (n := n) (r := .kw .IS :: (notTokens negated ++ [.kw .NULL] ++ rest))
    (fun l hl => by cases hl; decide) (Nat.le_of_add_right_le hn)
  refine ⟨.isNull e' negated, by rw [shape, shape, hs], ?_⟩
  rw [List.append_assoc]
  refine hpe.trans ?_
  rcases negated <;> rfl

/-- The keyword of a predicate, behind an optional NOT. -/
theorem parseTail_not {k : Keyword} (hk : k ≠ .IS ∧ k ≠ .NOT) (expr : ExprParser) (e : Expr) (negated : Bool) (ts : List Token) :
    parseTail expr e (notTokens negated ++ .kw k :: ts) = parseNegatable expr e negated (.kw k :: ts) := by
  rcases negated
  · change parseTail expr e (.kw k :: ts) = _
    rw [parseTail, acceptKw, if_neg hk.2]
    rintro ts' ⟨⟩
    exact hk.1 rfl
  · rfl

theorem follows_not {k : Keyword} (hk : contLevel [.kw k] = some 3) (negated : Bool) (ts : List Token) :
    Follows 4 (notTokens negated ++ .kw k :: ts) := by
  intro l hl
  rcases negated
  · have h : contLevel (.kw k :: ts) = some 3 := by
      rcases k <;> first | rfl | cases hk
    rw [notTokens, if_neg Bool.false_ne_true, List.nil_append, h] at hl
    cases hl
    decide
  · cases hl
    decide

theorem readable_between {e lo hi : Expr} (negated : Bool) (he : Readable e) (hlo : Readable lo) (hhi : Readable hi) :
    Readable (.between e lo hi negated) := by
  refine .of_readsBack (fun n rest hf hn => ?_) (not_leftAssoc (.inr (.inl rfl)))
  rw [printAt_level, tokens] at hn ⊢
  simp only [List.length_append, List.length_cons] at hn
  obtain ⟨e', hs, hpe⟩ := parsePredicate_left he (n := n)
    (r := notTokens negated ++ .kw .BETWEEN :: (printAt 4 lo ++ .kw .AND :: (printAt 4 hi ++ rest)))
    (follows_not rfl negated _) (by rw [printAt]; omega)
  obtain ⟨lo', hslo, hplo⟩ := hlo.readsBack 4 (by decide) n (.kw .AND :: (printAt 4 hi ++ rest))
    (fun l hl => by cases hl; decide) (by rw [printAt]; omega)
  obtain ⟨hi', hshi, hphi⟩ := hhi.readsBack 4 (by decide) n rest (hf.mono (by decide : 3 ≤ 4)) (by rw [printAt]; omega)
  change parseAdditive _ _ = _ at hplo hphi
  refine ⟨.between e' lo' hi' negated, by rw [shape, shape, hs, hslo, hshi], ?_⟩
  rw [List.append_assoc, List.append_assoc, List.cons_append, List.append_assoc, List.cons_append]
  refine hpe.trans ?_
  rw [parseTail_not (by decide), parseNegatable]
  simp only [hplo, bind, Except.bind, expectKw, if_pos, hphi]
  rfl

theorem readable_like {e pattern : Expr} (negated : Bool) (he : Readable e) (hpat : Readable pattern) :
    Readable (.like e pattern negated) := by
  refine .of_readsBack (fun n rest hf hn => ?_) (not_leftAssoc (.inr (.inl rfl)))
  rw [printAt_level, tokens] at hn ⊢
  simp only [List.length_append, List.length_cons] at hn
  obtain ⟨e', hs, hpe⟩ := parsePredicate_left he (n := n)
    (r := notTokens negated ++ .kw .LIKE :: (printAt 4 pattern ++ rest)) (follows_not rfl negated _)
    (by rw [printAt]; omega)
  obtain ⟨pattern', hsp, hpp⟩ := hpat.readsBack 4 (by decide) n rest (hf.mono (by decide : 3 ≤ 4)) (by rw [printAt]; omega)
  change parseAdditive _ _ = _ at hpp
  refine ⟨.like e' pattern' negated, by rw [shape, shape, hs, hsp], ?_⟩
  rw [List.append_assoc, List.append_assoc, List.cons_append]
  refine hpe.trans ?_
  rw [parseTail_not (by decide), parseNegatable]
  simp only [hpp, bind, Except.bind]
  rfl

/-- The items behind the first, each after its comma. -/
theorem parseItems_itemTokens {items : List Expr} (h : ∀ e ∈ items, Readable e) {n : Nat} (rest : List Token)
    (hn : (itemTokens items).length ≤ n) (k : Nat) (hk : (itemTokens items).length ≤ k) :
    ∃ items', shapes items' = shapes items ∧
      parseItems (parseNested n) k (itemTokens items ++ .op .rparen :: rest) = .ok (items', .op .rparen :: rest) := by
  induction items generalizing k with
  | nil =>
    refine ⟨[], rfl, ?_⟩
    rcases k with _ | k <;> rfl
  | cons e items ih =>
    rw [itemTokens] at hn hk ⊢
    simp only [List.length_cons, List.length_append] at hn hk
    rcases k with _ | k
    · omega
    have hfollow : Follows 4 (itemTokens items ++ .op .rparen :: rest) := by
      intro l hl
      rcases items with _ | ⟨e', items⟩
      · cases hl
      · rw [itemTokens] at hl
        cases hl
    obtain ⟨e', hs, hpe⟩ := (h e List.mem_cons_self).readsBack 4 (by decide) n _ hfollow (by rw [printAt]; omega)
    obtain ⟨items', hss, hps⟩ := ih (fun e he => h e (List.mem_cons_of_mem _ he)) (by omega) k (by omega)
    change parseAdditive _ _ = _ at hpe
    refine ⟨e' :: items', by rw [shapes, shapes, hs, hss], ?_⟩
    change parseItems _ (k + 1) (.op .comma :: (printAt 4 e ++ itemTokens items ++ _)) = _
    rw [parseItems, List.append_assoc]
    simp only [hpe, hps, bind, Except.bind]
    rfl

theorem readable_inList {e item : Expr} {items : List Expr} (negated : Bool) (he : Readable e) (hitem : Readable item)
    (hitems : ∀ e ∈ items, Readable e) : Readable (.inList e (item :: items) negated) := by
  refine .of_readsBack (fun n rest _ hn => ?_) (not_leftAssoc (.inr (.inl rfl)))
  rw [printAt_level, tokens, itemTokens, List.tail_cons] at hn ⊢
  simp only [List.length_append, List.length_cons] at hn
  have hfollow : Follows 4 (itemTokens items ++ .op .rparen :: rest) := by
    intro l hl
    rcases items with _ | ⟨e', items⟩
    · cases hl
    · rw [itemTokens] at hl
      cases hl
  obtain ⟨e', hs, hpe⟩ := parsePredicate_left he (n := n)
    (r := notTokens negated ++ .kw .IN :: .op .lparen :: (printAt 4 item ++ (itemTokens items ++ .op .rparen :: rest)))
    (follows_not rfl negated _) (by rw [printAt]; omega)
  obtain ⟨item', hsi, hpi⟩ := hitem.readsBack 4 (by decide) n _ hfollow (by rw [printAt]; omega)
  obtain ⟨items', hss, hps⟩ := parseItems_itemTokens hitems rest (n := n) (by omega)
    (itemTokens items ++ .op .rparen :: rest).length (by rw [List.length_append]; omega)
  change parseAdditive _ _ = _ at hpi
  refine ⟨.inList e' (item' :: items') negated, by rw [shape, shape, shapes, shapes, hs, hsi, hss], ?_⟩
  rw [List.append_assoc, List.append_assoc, List.cons_append, List.cons_append, List.append_assoc, List.append_assoc]
  refine hpe.trans ?_
  rw [parseTail_not (by decide), parseNegatable]
  simp only [bind, Except.bind, expectOp, if_pos, hpi, hps]
  rfl

theorem readable_cmp {op : BinaryOp} {l r : Expr} (hop : op.level = 3) (hl : Readable l) (hr : Readable r) :
    Readable (.binop op l r) := by
  have hcmp : cmpOp op.token = some op := by
    rcases op <;> first | rfl | cases hop
  have hcont : ∀ ts, contLevel (op.token :: ts) = some 3 := by
    intro ts
    rcases op <;> first | rfl | cases hop
  have h3 : (Expr.binop op l r).level = 3 := hop
  refine .of_readsBack (fun n rest hf hn => ?_) (not_leftAssoc (.inr (.inl h3)))
  rw [printAt_level, tokens, if_pos hop, hop] at hn ⊢
  rw [h3] at hf ⊢
  simp only [List.length_append, List.length_cons, Nat.reduceAdd] at hn
  obtain ⟨l', hsl, hpl⟩ := parsePredicate_left hl (n := n) (r := op.token :: (printAt 4 r ++ rest))
    (fun q hq => by rw [hcont] at hq; cases hq; decide) (by rw [printAt]; omega)
  obtain ⟨r', hsr, hpr⟩ := hr.readsBack 4 (by decide) n rest (hf.mono (by decide : 3 ≤ 4)) (by rw [printAt]; omega)
  change parseAdditive _ _ = _ at hpr
  refine ⟨.binop op l' r', by rw [shape, shape, hsl, hsr], ?_⟩
  rw [List.append_assoc, List.cons_append]
  refine hpl.trans ?_
  have htail : ∀ ts, parseTail (parseNested n) l' (op.token :: ts) =
      parseAdditive (parseNested n) ts >>= fun p => .ok (.binop op l' p.1, p.2) := by
    intro ts
    rcases op <;> first | rfl | cases hop
  rw [htail, hpr]
  rfl

mutual

theorem readable : (e : Expr) → e.Printable → Readable e
  | .literal _, h => readable_literal h
  | .column _ _, h => readable_column h
  | .func id _ none _ _, h => by
    rw [Printable] at h
    obtain ⟨rfl, rfl, rfl⟩ := h
    exact readable_countStar id
  | .func id _ (some e) _ distinct, h => by
    rw [Printable] at h
    obtain ⟨hname, rfl, he⟩ := h
    exact readable_func id distinct hname (readable e he)
  | .isNull e negated, h => readable_isNull negated (readable e h)
  | .between e lo hi negated, h => by
    rw [Printable] at h
    exact readable_between negated (readable e h.1) (readable lo h.2.1) (readable hi h.2.2)
  | .inList e [] _, h => by
    rw [Printable] at h
    exact absurd rfl h.2.1
  | .inList e (item :: items) negated, h => by
    rw [Printable, PrintableItems] at h
    exact readable_inList negated (readable e h.1) (readable item h.2.2.1) (readableItems items h.2.2.2)
  | .like e pattern negated, h => by
    rw [Printable] at h
    exact readable_like negated (readable e h.1) (readable pattern h.2)
  | .unary _ e, h => readable_unary (readable e h)
  | .binop op l r, h => by
    rw [Printable] at h
    have hl := readable l h.1
    have hr := readable r h.2
    by_cases hop : op.level = 3
    · exact readable_cmp hop hl hr
    · have hleft : LeftAssoc op.level := by
        rcases op <;> first | exact absurd rfl hop | simp [LeftAssoc, BinaryOp.level]
      have hlevel : op.level + 1 ≤ 7 := hleft.lt
      exact .of_loops (.binop hleft (hl.loops _ hleft) (hr.readsBack _ hlevel))

theorem readableItems : (items : List Expr) → PrintableItems items → ∀ e ∈ items, Readable e
  | [], _ => List.forall_mem_nil _
  | e :: items, h => List.forall_mem_cons.2 ⟨readable e h.1, readableItems items h.2⟩

end

/-- The parser inverts printing. An expression printed with the parentheses the precedence asks for, before
anything that does not continue it, is parsed to the same tree, and the parser stops where it ends. -/
theorem parseExpression_tokens (e : Expr) (he : e.Printable) (rest : List Token) (hrest : contLevel rest = none) :
    ∃ e', e'.shape = e.shape ∧ parseExpression (e.tokens ++ rest) = .ok (e', rest) :=
  (readable e he).readsBack 0 (Nat.zero_le 7) (e.tokens ++ rest).length rest (fun l hl => by rw [hrest] at hl; cases hl)
    (by rw [List.length_append]; exact Nat.le_add_right _ _)

/-- `NOT (1 = 2) AND 3 IN (4)` before a comma. -/
theorem parseExpression_tokens_not :
    ∃ e', e'.shape = Expr.binop .and (.unary .not (.binop .eq (.literal (.int 1)) (.literal (.int 2))))
      (.inList (.literal (.int 3)) [.literal (.int 4)] false) ∧
    parseExpression [.kw .NOT, .int 1, .op .eq, .int 2, .kw .AND, .int 3, .kw .IN, .op .lparen, .int 4, .op .rparen,
      .op .comma] = .ok (e', [.op .comma]) :=
  parseExpression_tokens (.binop .and (.unary .not (.binop .eq (.literal (.int 1)) (.literal (.int 2))))
      (.inList (.literal (.int 3)) [.literal (.int 4)] false))
    (by simp [Printable, PrintableItems]) [.op .comma] rfl

end Parser

end LeafDb
