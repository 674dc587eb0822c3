import LeafDb.Sql.Engine
import LeafDb.Sql.Lexer
import LeafDb.Sql.RunSelect

/-!
# The statement parser (`sqlparse.py`)

The state of a parser is the located tokens from its position on; the empty list is at `eof`. Labels of the select
list are cut from the text by the positions of tokens. A loop gets one round more than there are tokens left, and
every round but the last takes a token.
-/

namespace LeafDb

open Database (InsertStmt UpdateStmt DeleteStmt)

/-- A statement, as `parse_statement` returns it. -/
inductive Stmt
  | select (sel : SelectStmt)
  | insert (stmt : InsertStmt)
  | createTable (name : String) (columns : List ColumnDef)
  | createIndex (name table column : String)
  | delete (stmt : DeleteStmt)
  | update (stmt : UpdateStmt)
  | dropTable (name : String)
  | dropIndex (name : String)
  | begin
  | commit
  | rollback
  | explain (stmt : Stmt)

/-- A parser that reads from the located tokens left. -/
abbrev StmtParser (α : Type) := StateT (List Located) (Except StatementError) α

namespace StmtParser

/-! ### Tokens -/

def peek : StmtParser (Option Token) := fun ts => .ok (ts.head?.map Located.token, ts)

/-- `peek(1)`. -/
def peekNext : StmtParser (Option Token) := fun ts => .ok (ts.tail.head?.map Located.token, ts)

def next : StmtParser Unit := fun ts => .ok ((), ts.tail)

/-- `accept_kw`, `accept_op`. -/
def accept (t : Token) : StmtParser Bool := do
  if (← peek) = some t then
    next
    return true
  else return false

def expectKw (k : Keyword) : StmtParser Unit := do
  let t ← peek
  if t = some (.kw k) then next else throw (.expectedKw k t)

def expectOp (o : Op) : StmtParser Unit := do
  let t ← peek
  if t = some (.op o) then next else throw (.expectedOp o t)

def expectIdent (what : String) : StmtParser String := do
  match ← peek with
  | some (.ident name) =>
    next
    return name.toLower
  | some (.kw k) =>
    match k.identOk with
    | some value =>
      next
      return value.toLower
    | none => throw (.expectedIdent what (some (.kw k)))
  | t => throw (.expectedIdent what t)

/-- The identifier that is next, if one is. -/
def acceptIdent : StmtParser (Option String) := do
  match ← peek with
  | some (.ident name) =>
    next
    return some name
  | _ => return none

def expectInt (what : Keyword) : StmtParser Nat := do
  match ← peek with
  | some (.int n) =>
    next
    return n
  | _ => throw (.expectsInt what)

/-- `expect_ident_or_type`. -/
def expectType : StmtParser ColType := do
  match ← peek with
  | some (.kw .INT) =>
    next
    return .int
  | some (.kw .FLOAT) =>
    next
    return .float
  | some (.kw .TEXT) =>
    next
    return .text
  | some (.ident name) => throw (.unknownType name)
  | t => throw (.expectedType t)

/-! ### Optional and repeated parts -/

variable {α : Type}

/-- `if self.accept_kw(k): ...`. -/
def optional (k : Keyword) (p : StmtParser α) : StmtParser (Option α) := do
  if ← accept (.kw k) then return some (← p) else return none

/-- `while` there is a next item. -/
def loop (p : StmtParser (Option α)) : Nat → StmtParser (List α)
  | 0 => throw .outOfRounds
  | n + 1 => do
    match ← p with
    | some a => return a :: (← loop p n)
    | none => return []

def repeated (p : StmtParser (Option α)) : StmtParser (List α) := do loop p ((← get).length + 1)

def afterComma (p : StmtParser α) : StmtParser (Option α) := do
  if ← accept (.op .comma) then return some (← p) else return none

/-- Items separated by commas, one at least. -/
def commaList (p : StmtParser α) : StmtParser (List α) := do
  let a ← p
  let as ← repeated (afterComma p)
  return a :: as

/-- `parse_expression`. -/
def expression : StmtParser Expr := fun ts =>
  match Parser.parseExpression (ts.map Located.token) with
  | .ok (e, left) => .ok (e, ts.drop (ts.length - left.length))
  | .error e => .error (.expr e)

/-! ### SELECT -/

/-- `_default_label`. -/
def defaultLabel : Expr → String
  | .func _ name _ true _ => name ++ "(*)"
  | .func _ name (some (.column c none)) false _ => name ++ "(" ++ c ++ ")"
  | .func _ name _ false _ => name ++ "(?)"
  | _ => "expr"

section

variable (tab : CharTable) (sql : List Char)

/-- `str.strip`. -/
def strip (cs : List Char) : List Char := ((cs.dropWhile tab.isSpace).reverse.dropWhile tab.isSpace).reverse

/-- `_text_slice`. -/
def textSlice (first last : Located) : String :=
  String.ofList (strip tab ((sql.drop first.pos).take (last.stop - first.pos)))

/-- The text of what was read from `ts`, when `left` is left of it. -/
def textOf (ts left : List Located) : String :=
  match ts.head?, (ts.take (ts.length - left.length)).getLast? with
  | some first, some last => textSlice tab sql first last
  | _, _ => ""

/-- `AS` and an alias, or a bare identifier. -/
def parseAlias : StmtParser (Option String) := do
  if ← accept (.kw .AS) then return some (← expectIdent "alias") else acceptIdent

/-- An aggregate's name and a parenthesis are next. -/
def atCall : StmtParser Bool := do
  match ← peek with
  | some (.kw k) => return k.aggregate.isSome && (← peekNext) = some (.op .lparen)
  | _ => return false

def parseSelectItem : StmtParser SelectItem := do
  if ← accept (.op .star) then return .star
  else if ← atCall then
    let e ← expression
    return .expr e ((← parseAlias).getD (defaultLabel e))
  else
    let start ← get
    let e ← expression
    let left ← get
    return .expr e ((← parseAlias).getD (textOf tab sql start left))

/-- `_parse_join_opt` behind the words for the kind of join. -/
def parseJoinRest (jtype : JoinType) : StmtParser JoinClause := do
  let table ← expectIdent "join table"
  let alias? ← parseAlias
  expectKw .ON
  let on ← expression
  return ⟨jtype, table, alias?, on⟩

/-- `INNER`, `LEFT`, `RIGHT` or `FULL`, and what follows. -/
def parseJoinWord (jtype : JoinType) : StmtParser (Option JoinClause) := do
  next
  let _ ← accept (.kw .OUTER)
  expectKw .JOIN
  return some (← parseJoinRest jtype)

/-- `_parse_join_opt`. -/
def parseJoinOpt : StmtParser (Option JoinClause) := do
  match ← peek with
  | some (.kw .INNER) => parseJoinWord .inner
  | some (.kw .LEFT) => parseJoinWord .left
  | some (.kw .RIGHT) => parseJoinWord .right
  | some (.kw .FULL) => parseJoinWord .full
  | some (.kw .JOIN) =>
    next
    return some (← parseJoinRest .inner)
  | _ => return none

def parseOrderItem : StmtParser OrderItem := do
  let e ← expression
  if ← accept (.kw .DESC) then return ⟨e, true⟩
  else
    let _ ← accept (.kw .ASC)
    return ⟨e, false⟩

/-- `GROUP BY` or `ORDER BY` and its items. -/
def byList (k : Keyword) (p : StmtParser α) : StmtParser (List α) := do
  if ← accept (.kw k) then
    expectKw .BY
    commaList p
  else return []

/-- `LIMIT` and `OFFSET`. -/
def parseLimits : StmtParser (Option Nat × Option Nat) := do
  let limit? ← optional .LIMIT (expectInt .LIMIT)
  let offset? ← optional .OFFSET (expectInt .OFFSET)
  return (limit?, offset?)

def parseSelect : StmtParser SelectStmt := do
  expectKw .SELECT
  let distinct ← accept (.kw .DISTINCT)
  let items ← commaList (parseSelectItem tab sql)
  expectKw .FROM
  let table ← expectIdent "table name"
  let alias? ← parseAlias
  let joins ← repeated parseJoinOpt
  let where? ← optional .WHERE expression
  let groupBy ← byList .GROUP expression
  let having? ← optional .HAVING expression
  let orderBy ← byList .ORDER parseOrderItem
  let (limit?, offset?) ← parseLimits
  return { table, alias?, joins, where?, distinct, items, groupBy, having?, orderBy, limit?, offset? }

end

/-! ### The other statements -/

/-- `(` a list `)`. -/
def parenList (p : StmtParser α) : StmtParser (List α) := do
  expectOp .lparen
  let as ← commaList p
  expectOp .rparen
  return as

/-- The columns an `INSERT` names. -/
def parseColumns : StmtParser (Option (List String)) := do
  if (← peek) = some (.op .lparen) then return some (← parenList (expectIdent "column name")) else return none

def parseInsert : StmtParser InsertStmt := do
  expectKw .INSERT
  expectKw .INTO
  let table ← expectIdent "table name"
  let columns ← parseColumns
  expectKw .VALUES
  let rows ← commaList (parenList expression)
  return { table, columns, rows }

def parseColumnDef : StmtParser ColumnDef := do
  let name ← expectIdent "column name"
  let type ← expectType
  if ← accept (.kw .PRIMARY) then
    expectKw .KEY
    return ⟨name, type, true⟩
  else return ⟨name, type, false⟩

def parseCreate : StmtParser Stmt := do
  expectKw .CREATE
  if ← accept (.kw .TABLE) then
    let name ← expectIdent "table name"
    return .createTable name (← parenList parseColumnDef)
  else if ← accept (.kw .INDEX) then
    let name ← expectIdent "index name"
    expectKw .ON
    let table ← expectIdent "table name"
    expectOp .lparen
    let column ← expectIdent "column name"
    expectOp .rparen
    return .createIndex name table column
  else throw (.expectedTableOrIndex .CREATE)

def parseDelete : StmtParser DeleteStmt := do
  expectKw .DELETE
  expectKw .FROM
  let table ← expectIdent "table name"
  return ⟨table, ← optional .WHERE expression⟩

def parseAssignment : StmtParser (String × Expr) := do
  let col ← expectIdent "column name"
  expectOp .eq
  return (col, ← expression)

def parseUpdate : StmtParser UpdateStmt := do
  expectKw .UPDATE
  let table ← expectIdent "table name"
  expectKw .SET
  let assignments ← commaList parseAssignment
  return ⟨table, assignments, ← optional .WHERE expression⟩

def parseDrop : StmtParser Stmt := do
  next
  if ← accept (.kw .TABLE) then return .dropTable (← expectIdent "table name")
  else if ← accept (.kw .INDEX) then return .dropIndex (← expectIdent "index name")
  else throw (.expectedTableOrIndex .DROP)

section

variable (tab : CharTable) (sql : List Char)

/-- `parse_statement`, but for `EXPLAIN`. -/
def parsePlain : StmtParser Stmt := do
  match ← peek with
  | some (.kw .SELECT) => return .select (← parseSelect tab sql)
  | some (.kw .INSERT) => return .insert (← parseInsert)
  | some (.kw .CREATE) => parseCreate
  | some (.kw .DELETE) => return .delete (← parseDelete)
  | some (.kw .UPDATE) => return .update (← parseUpdate)
  | some (.kw .DROP) => parseDrop
  | some (.kw .BEGIN) =>
    next
    return .begin
  | some (.kw .COMMIT) =>
    next
    return .commit
  | some (.kw .ROLLBACK) =>
    next
    return .rollback
  | t => throw (.unsupported t)

def explained : Stmt → StmtParser Stmt
  | .explain _ => throw .nestedExplain
  | stmt => return .explain stmt

/-- `Parser.parse_statement`. -/
def parseStmt : List Located → Except StatementError (Stmt × List Located)
  | t :: ts =>
    if t.token = .kw .EXPLAIN then do
      let (inner, ts) ← parseStmt ts
      explained inner ts
    else parsePlain tab sql (t :: ts)
  | [] => parsePlain tab sql []

/-- `while p.accept_op(";")`. -/
def skipSemicolons : StmtParser Unit := fun ts => .ok ((), ts.dropWhile (·.token = .op .semicolon))

/-- The semicolon or the end of the input behind a statement. -/
def endOfStmt (stmt : Stmt) : StmtParser (Option Stmt) := do
  if ← accept (.op .semicolon) then return some stmt
  else
    match ← peek with
    | none => return some stmt
    | t => throw (.notSeparated t)

/-- A round of `parse_script`. -/
def scriptStmt : StmtParser (Option Stmt) := do
  skipSemicolons
  if (← get).isEmpty then return none
  let stmt ← parseStmt tab sql
  endOfStmt stmt

end

end StmtParser

open StmtParser

/-- `parse_statement`. -/
def parseStatement (tab : CharTable) (sql : List Char) : Except StatementError Stmt := do
  let (stmt, ts) ← parseStmt tab sql (← Lexer.tokenize tab sql)
  let (_, ts) ← accept (.op .semicolon) ts
  match ts with
  | [] => return stmt
  | t :: _ => throw (.trailingInput (some t.token))

/-- `parse_script`. -/
def parseScript (tab : CharTable) (sql : List Char) : Except StatementError (List Stmt) := do
  let (stmts, _) ← repeated (scriptStmt tab sql) (← Lexer.tokenize tab sql)
  return stmts

end LeafDb
