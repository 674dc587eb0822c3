import LeafDb.Sql.Expr

/-!
# The expression parser (`sqlparse.py`)

A parser takes the tokens from its position on, without the closing `eof`: the empty list is at `eof`,
where `next` does not move. Each level of precedence takes the parser of `parse_expression` as a parameter;
it is needed between parentheses only, so `parseNested` has the depth of the nesting as its fuel, and the
number of tokens bounds it. The depth of the interpreter's own stack is not modelled.
-/

namespace LeafDb

/-- `KEYWORDS`. -/
inductive Keyword
  | SELECT | FROM | WHERE | GROUP | BY | HAVING | ORDER | LIMIT
  | OFFSET | ASC | DESC | AND | OR | NOT | NULL | IS | IN
  | DISTINCT | JOIN | INNER | LEFT | RIGHT | FULL | OUTER | ON
  | AS | INSERT | INTO | VALUES | CREATE | TABLE | INDEX | DELETE
  | UPDATE | SET | BEGIN | COMMIT | ROLLBACK | EXPLAIN | PRIMARY
  | KEY | INT | FLOAT | TEXT | COUNT | SUM | AVG | MIN | MAX
  | BETWEEN | LIKE | DROP
deriving DecidableEq, Repr

/-- The operators of `_TOKEN_RE`. -/
inductive Op
  | le | ge | ltGt | bangEq | eq | lt | gt | semicolon | comma | lparen | rparen | star | dot | plus | minus | slash
deriving DecidableEq, Repr

/-- A token: kind and value. A number is an `int` or a `float`. -/
inductive Token
  | int (n : Nat)
  | float (f : PyFloat)
  | str (s : String)
  | kw (k : Keyword)
  | ident (name : String)
  | op (o : Op)
deriving DecidableEq

/-- `ParseError` of the expression parser; `none` is the end of the input. -/
inductive ParseError
  | expectedKw (kw : Keyword) (found : Option Token)
  | expectedOp (op : Op) (found : Option Token)
  | danglingNot
  | unexpectedKeyword (kw : Keyword)
  | unexpected (found : Option Token)
  | tooDeep
deriving DecidableEq

namespace Keyword

/-- The value of a keyword in `AGGREGATES`. -/
def aggregate : Keyword → Option String
  | COUNT => some "COUNT"
  | SUM => some "SUM"
  | AVG => some "AVG"
  | MIN => some "MIN"
  | MAX => some "MAX"
  | _ => none

/-- The value of a keyword in `IDENT_OK_KEYWORDS`. -/
def identOk : Keyword → Option String
  | INT => some "INT"
  | TEXT => some "TEXT"
  | k => k.aggregate

end Keyword

namespace Parser

/-- A parser of expressions: the tree and the tokens left. -/
abbrev ExprParser := List Token → Except ParseError (Expr × List Token)

/-! ### `accept_*` and `expect_*` -/

def acceptKw (k : Keyword) : List Token → Bool × List Token
  | .kw k' :: ts => if k' = k then (true, ts) else (false, .kw k' :: ts)
  | ts => (false, ts)

def expectKw (k : Keyword) : List Token → Except ParseError (List Token)
  | .kw k' :: ts => if k' = k then .ok ts else .error (.expectedKw k (some (.kw k')))
  | ts => .error (.expectedKw k ts.head?)

def expectOp (o : Op) : List Token → Except ParseError (List Token)
  | .op o' :: ts => if o' = o then .ok ts else .error (.expectedOp o (some (.op o')))
  | ts => .error (.expectedOp o ts.head?)

/-! ### Left-associative levels -/

section Left

variable (op? : Token → Option BinaryOp) (sub : ExprParser)

/-- `while` an operator of the level is next. Each round takes a token, so their number bounds the rounds. -/
def binLoop : Nat → Expr → ExprParser
  | n + 1, left, t :: ts =>
    match op? t with
    | some op => do
      let (right, ts) ← sub ts
      binLoop n (.binop op left right) ts
    | none => .ok (left, t :: ts)
  | _, left, ts => .ok (left, ts)

def parseLeft (ts : List Token) : Except ParseError (Expr × List Token) := do
  let (left, ts) ← sub ts
  binLoop op? sub ts.length left ts

end Left

def orOp : Token → Option BinaryOp
  | .kw .OR => some .or
  | _ => none

def andOp : Token → Option BinaryOp
  | .kw .AND => some .and
  | _ => none

def addOp : Token → Option BinaryOp
  | .op .plus => some .add
  | .op .minus => some .sub
  | _ => none

def mulOp : Token → Option BinaryOp
  | .op .star => some .mul
  | .op .slash => some .div
  | _ => none

/-- The comparisons of `_parse_predicate`; `!=` is `<>`. -/
def cmpOp : Token → Option BinaryOp
  | .op .eq => some .eq
  | .op .ltGt => some .ne
  | .op .bangEq => some .ne
  | .op .le => some .le
  | .op .ge => some .ge
  | .op .lt => some .lt
  | .op .gt => some .gt
  | _ => none

/-! ### The levels -/

/-- A column, after its first name. -/
def parseColumn (value : String) : List Token → Expr × List Token
  | .op .dot :: .ident col :: ts => (.column col (some value.toLower), ts)
  | ts => (.column value.toLower none, ts)

section Levels

variable (expr : ExprParser)

/-- An aggregate call, after its parenthesis. The tokens left tell its node from all others. -/
def parseCall (name : String) (ts : List Token) : Except ParseError (Expr × List Token) :=
  if name = "COUNT" ∧ ts.head? = some (.op .star) then do
    let ts' ← expectOp .rparen ts.tail
    return (.func ts.length "COUNT" none true false, ts')
  else do
    let (distinct, ts') := acceptKw .DISTINCT ts
    let (arg, ts') ← expr ts'
    let ts' ← expectOp .rparen ts'
    return (.func ts.length name (some arg) false distinct, ts')

/-- `_parse_primary`. -/
def parsePrimary : ExprParser
  | .int n :: ts => .ok (.literal (.int n), ts)
  | .float f :: ts => .ok (.literal (.float f), ts)
  | .str s :: ts => .ok (.literal (.str s), ts)
  | .kw k :: ts =>
    if k = .NULL then .ok (.literal .none, ts)
    else
      match k.aggregate, ts with
      | some name, .op .lparen :: ts => parseCall expr name ts
      | _, _ =>
        match k.identOk with
        | some value => .ok (parseColumn value ts)
        | none => .error (.unexpectedKeyword k)
  | .ident name :: ts => .ok (parseColumn name ts)
  | .op .lparen :: ts => do
    let (e, ts) ← expr ts
    let ts ← expectOp .rparen ts
    return (e, ts)
  | ts => .error (.unexpected ts.head?)

/-- `_parse_unary`. -/
def parseUnary : ExprParser
  | .op .minus :: ts => do
    let (e, ts) ← parseUnary ts
    return (.unary .neg e, ts)
  | .op .plus :: ts => parseUnary ts
  | ts => parsePrimary expr ts

/-- `_parse_multiplicative`. -/
def parseMultiplicative : ExprParser := parseLeft mulOp (parseUnary expr)

/-- `_parse_additive`. -/
def parseAdditive : ExprParser := parseLeft addOp (parseMultiplicative expr)

/-- The items of `IN` behind the first. -/
def parseItems : Nat → List Token → Except ParseError (List Expr × List Token)
  | n + 1, .op .comma :: ts => do
    let (e, ts) ← parseAdditive expr ts
    let (es, ts) ← parseItems n ts
    return (e :: es, ts)
  | _, ts => .ok ([], ts)

/-- `_parse_predicate`, after `IS`. -/
def parseIs (left : Expr) (ts : List Token) : Except ParseError (Expr × List Token) := do
  let (negated, ts) := acceptKw .NOT ts
  let ts ← expectKw .NULL ts
  return (.isNull left negated, ts)

/-- `_parse_predicate`, after an optional `NOT`. -/
def parseNegatable (left : Expr) (negated : Bool) : ExprParser
  | .kw .BETWEEN :: ts => do
    let (lo, ts) ← parseAdditive expr ts
    let ts ← expectKw .AND ts
    let (hi, ts) ← parseAdditive expr ts
    return (.between left lo hi negated, ts)
  | .kw .IN :: ts => do
    let ts ← expectOp .lparen ts
    let (item, ts) ← parseAdditive expr ts
    let (items, ts) ← parseItems expr ts.length ts
    let ts ← expectOp .rparen ts
    return (.inList left (item :: items) negated, ts)
  | .kw .LIKE :: ts => do
    let (pattern, ts) ← parseAdditive expr ts
    return (.like left pattern negated, ts)
  | ts =>
    if negated then .error .danglingNot
    else
      match ts with
      | [] => .ok (left, [])
      | t :: ts =>
        match cmpOp t with
        | some op => do
          let (right, ts) ← parseAdditive expr ts
          return (.binop op left right, ts)
        | none => .ok (left, t :: ts)

/-- `_parse_predicate`, after its left operand. -/
def parseTail (left : Expr) : ExprParser
  | .kw .IS :: ts => parseIs left ts
  | ts =>
    let (negated, ts) := acceptKw .NOT ts
    parseNegatable expr left negated ts

/-- `_parse_predicate`. -/
def parsePredicate (ts : List Token) : Except ParseError (Expr × List Token) := do
  let (left, ts) ← parseAdditive expr ts
  parseTail expr left ts

/-- `_parse_not`. -/
def parseNot : ExprParser
  | .kw .NOT :: ts => do
    let (e, ts) ← parseNot ts
    return (.unary .not e, ts)
  | ts => parsePredicate expr ts

/-- `_parse_and`. -/
def parseAnd : ExprParser := parseLeft andOp (parseNot expr)

/-- `_parse_or`. -/
def parseOr : ExprParser := parseLeft orOp (parseAnd expr)

end Levels

/-- `parse_expression` with a bound on the depth of the parentheses. -/
def parseNested : Nat → ExprParser
  | 0, _ => .error .tooDeep
  | n + 1, ts => parseOr (parseNested n) ts

/-- `parse_expression`. -/
def parseExpression (ts : List Token) : Except ParseError (Expr × List Token) := parseNested (ts.length + 1) ts

example : parseExpression [.int 1, .op .eq, .int 2, .kw .AND, .kw .NOT, .int 3] =
    .ok (.binop .and (.binop .eq (.literal (.int 1)) (.literal (.int 2))) (.unary .not (.literal (.int 3))), []) := rfl

end Parser

end LeafDb
