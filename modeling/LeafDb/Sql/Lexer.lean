import LeafDb.Base.Result
import LeafDb.Sql.Parse

/-!
# The tokenizer (`sqlparse.py`)

A text is its list of characters. `CharTable` is what the tokenizer takes from Python's tables: which characters are
blanks (`str.isspace`, which is also `\s`), the decimal digits (`\d`) with their values, and the number of digits
beyond which `int` refuses a text (0 for none). Of the first two only the ASCII part is fixed.

Every match of `_TOKEN_RE` takes a character at least, so the length of the text bounds the rounds.
-/

namespace LeafDb

/-- What tokenizing and parsing a statement raises; `none` is the end of the input. `intTooLong` is the `ValueError`
of `int`, the others are `ParseError`. -/
inductive StatementError
  | unexpectedChar (c : Char) (pos : Nat)
  | intTooLong
  | expr (e : ParseError)
  | expectedKw (kw : Keyword) (found : Option Token)
  | expectedOp (op : Op) (found : Option Token)
  | expectedIdent (what : String) (found : Option Token)
  | nestedExplain
  | expectedTableOrIndex (after : Keyword)
  | unsupported (found : Option Token)
  | expectsInt (what : Keyword)
  | unknownType (name : String)
  | expectedType (found : Option Token)
  | trailingInput (found : Option Token)
  | notSeparated (found : Option Token)
  /-- A loop of the model used up its rounds, which a text cannot bring about. -/
  | outOfRounds
deriving DecidableEq

structure CharTable where
  isSpace : Char → Bool
  digit : Char → Option Nat
  /-- `sys.get_int_max_str_digits()`. -/
  maxDigits : Nat
  isSpace_ascii : ∀ c : Char, c.toNat < 128 →
    (isSpace c = true ↔ 9 ≤ c.toNat ∧ c.toNat ≤ 13 ∨ 28 ≤ c.toNat ∧ c.toNat ≤ 32)
  digit_ascii : ∀ c : Char, c.toNat < 128 → digit c = if c.isDigit then some (c.toNat - 48) else none

/-- The ASCII part of the tables. -/
def asciiTable : CharTable where
  isSpace c := decide (9 ≤ c.toNat ∧ c.toNat ≤ 13 ∨ 28 ≤ c.toNat ∧ c.toNat ≤ 32)
  digit c := if c.isDigit then some (c.toNat - 48) else none
  maxDigits := 4300
  isSpace_ascii _ _ := decide_eq_true_iff
  digit_ascii _ _ := rfl

/-- A token with the positions of its first character and behind its last one. -/
structure Located where
  token : Token
  pos : Nat
  stop : Nat

/-- The token `o` characters further on. -/
def Located.shift (o : Nat) (t : Located) : Located := ⟨t.token, t.pos + o, t.stop + o⟩

/-- `KEYWORDS` by their texts. -/
def keywords : List (String × Keyword) :=
  [("SELECT", .SELECT), ("FROM", .FROM), ("WHERE", .WHERE), ("GROUP", .GROUP), ("BY", .BY), ("HAVING", .HAVING),
    ("ORDER", .ORDER), ("LIMIT", .LIMIT), ("OFFSET", .OFFSET), ("ASC", .ASC), ("DESC", .DESC), ("AND", .AND), ("OR", .OR),
    ("NOT", .NOT), ("NULL", .NULL), ("IS", .IS), ("IN", .IN), ("DISTINCT", .DISTINCT), ("JOIN", .JOIN), ("INNER", .INNER),
    ("LEFT", .LEFT), ("RIGHT", .RIGHT), ("FULL", .FULL), ("OUTER", .OUTER), ("ON", .ON), ("AS", .AS), ("INSERT", .INSERT),
    ("INTO", .INTO), ("VALUES", .VALUES), ("CREATE", .CREATE), ("TABLE", .TABLE), ("INDEX", .INDEX), ("DELETE", .DELETE),
    ("UPDATE", .UPDATE), ("SET", .SET), ("BEGIN", .BEGIN), ("COMMIT", .COMMIT), ("ROLLBACK", .ROLLBACK),
    ("EXPLAIN", .EXPLAIN), ("PRIMARY", .PRIMARY), ("KEY", .KEY), ("INT", .INT), ("FLOAT", .FLOAT), ("TEXT", .TEXT),
    ("COUNT", .COUNT), ("SUM", .SUM), ("AVG", .AVG), ("MIN", .MIN), ("MAX", .MAX), ("BETWEEN", .BETWEEN), ("LIKE", .LIKE),
    ("DROP", .DROP)]

namespace Lexer

/-- The values of `f` on the longest beginning on which it has one, and what follows. -/
def spanSome {β : Type} (f : Char → Option β) : List Char → List β × List Char
  | [] => ([], [])
  | c :: cs =>
    match f c with
    | some b => (b :: (spanSome f cs).1, (spanSome f cs).2)
    | none => ([], c :: cs)

/-- `'(?:[^']|'')*'` behind its first quote: what is between the quotes, with `''` replaced by `'`, and what follows. A
pair of quotes is given back if no closing quote follows it. -/
def scanString : List Char → Option (List Char × List Char)
  | '\'' :: '\'' :: cs =>
    match scanString cs with
    | some (s, rest) => some ('\'' :: s, rest)
    | none => some ([], '\'' :: cs)
  | '\'' :: cs => some ([], cs)
  | c :: cs => (scanString cs).map fun r => (c :: r.1, r.2)
  | [] => none

def isIdentStart (c : Char) : Bool := c.isAlpha || c = '_'

/-- A character of `[A-Za-z_0-9]`. -/
def identPart (c : Char) : Option Char := if c.isAlphanum || c = '_' then some c else none

/-- A keyword or an identifier, of its text. -/
def word (text : List Char) : Token :=
  match keywords.lookup (String.ofList (text.map Char.toUpper)) with
  | some k => .kw k
  | none => .ident (String.ofList (text.map Char.toLower))

/-- The operators of two characters. -/
def pairOp : Char → Char → Option Op
  | '<', '=' => some .le
  | '>', '=' => some .ge
  | '<', '>' => some .ltGt
  | '!', '=' => some .bangEq
  | _, _ => none

def singleOp : Char → Option Op
  | '=' => some .eq
  | '<' => some .lt
  | '>' => some .gt
  | ';' => some .semicolon
  | ',' => some .comma
  | '(' => some .lparen
  | ')' => some .rparen
  | '*' => some .star
  | '.' => some .dot
  | '+' => some .plus
  | '-' => some .minus
  | '/' => some .slash
  | _ => none

/-- The operator at the character `c`; those of two characters come first in `_TOKEN_RE`. -/
def operator (c : Char) (cs : List Char) : Option (Op × List Char) :=
  match cs.head?.bind (pairOp c) with
  | some o => some (o, cs.tail)
  | none => (singleOp c).map (·, cs)

/-- The number the digits write. -/
def decimal (ds : List Nat) : Nat := ds.foldl (fun v d => v * 10 + d) 0

section

variable (tab : CharTable)

/-- `int(text)`. -/
def readInt (ds : List Nat) : Except StatementError Token :=
  if tab.maxDigits ≠ 0 ∧ tab.maxDigits < ds.length then .error .intTooLong else .ok (.int (decimal ds))

/-- `\d+\.\d+|\d+` behind its first digits `ds`. -/
def readNumber (ds : List Nat) : List Char → Except StatementError (Token × List Char)
  | '.' :: cs =>
    let (fs, rest) := spanSome tab.digit cs
    if fs.isEmpty then (readInt tab ds).map (·, '.' :: cs)
    else .ok (.float (PyFloat.ofRat false ((decimal (ds ++ fs) : ℚ) / 10 ^ fs.length)), rest)
  | cs => (readInt tab ds).map (·, cs)

/-- One match of `_TOKEN_RE` at the character `c`: the token, none for blanks, and what follows. -/
def nextToken (pos : Nat) (c : Char) (cs : List Char) : Except StatementError (Option Token × List Char) :=
  if tab.isSpace c then .ok (none, (spanSome (fun c => if tab.isSpace c then some c else none) cs).2)
  else if c = '\'' then
    match scanString cs with
    | some (s, rest) => .ok (some (.str (String.ofList s)), rest)
    | none => .error (.unexpectedChar c pos)
  else if (tab.digit c).isSome then
    let (ds, rest) := spanSome tab.digit (c :: cs)
    (readNumber tab ds rest).map fun r => (some r.1, r.2)
  else if isIdentStart c then
    let (text, rest) := spanSome identPart (c :: cs)
    .ok (some (word text), rest)
  else
    match operator c cs with
    | some (o, rest) => .ok (some (.op o), rest)
    | none => .error (.unexpectedChar c pos)

/-- The tokens of a text that begins at `pos`. -/
def lexFrom : Nat → Nat → List Char → Except StatementError (List Located)
  | n + 1, pos, c :: cs => do
    let (token, rest) ← nextToken tab pos c cs
    let stop := pos + ((c :: cs).length - rest.length)
    let ts ← lexFrom n stop rest
    return match token with
      | some token => ⟨token, pos, stop⟩ :: ts
      | none => ts
  | _, _, _ => .ok []

/-- `tokenize`, without the closing `eof`. -/
def tokenize (sql : List Char) : Except StatementError (List Located) := lexFrom tab sql.length 0 sql

end

/-! ### A text in front of a semicolon or a quote -/

/-- A character that ends what is in front of it: it is no blank, and no part of a number, a word or an operator of two
characters. -/
structure Breaks (tab : CharTable) (c : Char) : Prop where
  space : tab.isSpace c = false
  digit : tab.digit c = none
  ident : identPart c = none
  pair : ∀ c', pairOp c' c = none
  dot : c ≠ '.'

/-- Nothing, or a text that begins with such a character. -/
def Boundary (tab : CharTable) (post : List Char) : Prop := ∀ c, post.head? = some c → Breaks tab c

/-- Nothing, or a semicolon and anything. -/
def Seam (post : List Char) : Prop := ∀ c, post.head? = some c → c = ';'

theorem Seam.cases {post : List Char} (h : Seam post) : post = [] ∨ ∃ cs, post = ';' :: cs := by
  rcases post with _ | ⟨c, cs⟩
  · exact .inl rfl
  · exact .inr ⟨cs, by rw [h c rfl]⟩

theorem Seam.ne_quote {post : List Char} (h : Seam post) : post.head? ≠ some '\'' := by
  intro hc
  cases h '\'' hc

theorem spanSome_suffix {β : Type} (f : Char → Option β) (cs : List Char) : (spanSome f cs).2 <:+ cs := by
  induction cs with
  | nil => exact List.suffix_refl _
  | cons c cs ih =>
    unfold spanSome
    cases f c with
    | none => exact List.suffix_refl _
    | some b => exact ih.trans (List.suffix_cons c cs)

theorem spanSome_seam {β : Type} {f : Char → Option β} {post : List Char} (hf : ∀ c, post.head? = some c → f c = none)
    (cs : List Char) : spanSome f (cs ++ post) = ((spanSome f cs).1, (spanSome f cs).2 ++ post) := by
  induction cs with
  | nil =>
    rcases post with _ | ⟨c, post⟩
    · rfl
    · simp only [spanSome, List.nil_append, hf c rfl]
  | cons c cs ih =>
    rw [List.cons_append, spanSome, spanSome]
    cases f c with
    | none => rfl
    | some b => rw [ih]

theorem scanString_suffix {cs s rest : List Char} (h : scanString cs = some (s, rest)) : rest <:+ cs := by
  induction cs using scanString.induct generalizing s rest with
  | case1 cs s₁ rest₁ hscan ih =>
    rw [scanString, hscan] at h
    cases h
    exact (ih hscan).trans ((List.suffix_cons _ _).trans (List.suffix_cons _ _))
  | case2 cs hscan ih =>
    rw [scanString, hscan] at h
    cases h
    exact List.suffix_cons _ _
  | case3 cs hne =>
    rw [scanString.eq_2 cs hne] at h
    cases h
    exact List.suffix_cons _ _
  | case4 c cs hne hquote ih =>
    rw [scanString.eq_3 c cs hne hquote] at h
    obtain ⟨⟨s₁, rest₁⟩, hscan, heq⟩ := Option.map_eq_some_iff.1 h
    cases heq
    exact (ih hscan).trans (List.suffix_cons _ _)
  | case5 => cases h

/-- A string that was closed by giving back a quote leaves a text that cannot be tokenized. -/
theorem scanString_quote {cs s r : List Char} (h : scanString cs = some (s, '\'' :: r)) : scanString r = none := by
  induction cs using scanString.induct generalizing s with
  | case1 cs s₁ rest₁ hscan ih =>
    rw [scanString, hscan] at h
    cases h
    exact ih hscan
  | case2 cs hscan ih =>
    rw [scanString, hscan] at h
    cases h
    exact hscan
  | case3 cs hne =>
    rw [scanString.eq_2 cs hne] at h
    cases h
    exact absurd rfl (hne r)
  | case4 c cs hne hquote ih =>
    rw [scanString.eq_3 c cs hne hquote] at h
    obtain ⟨⟨s₁, rest₁⟩, hscan, heq⟩ := Option.map_eq_some_iff.1 h
    cases heq
    exact ih hscan
  | case5 => cases h

theorem scanString_seam {cs s rest post : List Char} (h : scanString cs = some (s, rest))
    (hrest : ∀ r, rest ++ post ≠ '\'' :: r) : scanString (cs ++ post) = some (s, rest ++ post) := by
  induction cs using scanString.induct generalizing s rest with
  | case1 cs s₁ rest₁ hscan ih =>
    rw [scanString, hscan] at h
    cases h
    rw [List.cons_append, List.cons_append, scanString, ih hscan hrest]
  | case2 cs hscan ih =>
    rw [scanString, hscan] at h
    cases h
    exact absurd rfl (hrest (cs ++ post))
  | case3 cs hne =>
    rw [scanString.eq_2 cs hne] at h
    cases h
    exact scanString.eq_2 (cs ++ post) hrest
  | case4 c cs hne hquote ih =>
    rw [scanString.eq_3 c cs hne hquote] at h
    obtain ⟨⟨s₁, rest₁⟩, hscan, heq⟩ := Option.map_eq_some_iff.1 h
    cases heq
    rw [List.cons_append, scanString.eq_3 c (cs ++ post) (fun _ hc _ => hquote hc) hquote, ih hscan hrest]
    rfl
  | case5 => cases h

/-- A string that takes all of a text ends with its last quote. -/
theorem getLast?_of_scanString {cs s : List Char} (h : scanString cs = some (s, [])) : cs.getLast? = some '\'' := by
  induction cs using scanString.induct generalizing s with
  | case1 cs s₁ rest₁ hscan ih =>
    rw [scanString, hscan] at h
    cases h
    rw [List.getLast?_cons, List.getLast?_cons, ih hscan]
    rfl
  | case2 cs hscan ih =>
    rw [scanString, hscan] at h
    cases h
  | case3 cs hne =>
    rw [scanString.eq_2 cs hne] at h
    cases h
    rfl
  | case4 c cs hne hquote ih =>
    rw [scanString.eq_3 c cs hne hquote] at h
    obtain ⟨⟨s₁, rest₁⟩, hscan, heq⟩ := Option.map_eq_some_iff.1 h
    cases heq
    rw [List.getLast?_cons, ih hscan]
    rfl
  | case5 => cases h

theorem operator_suffix {c : Char} {cs rest : List Char} {o : Op} (h : operator c cs = some (o, rest)) : rest <:+ cs := by
  unfold operator at h
  split at h
  · cases h
    exact List.tail_suffix cs
  · obtain ⟨o', -, heq⟩ := Option.map_eq_some_iff.1 h
    cases heq
    exact List.suffix_refl _

theorem pairOp_semicolon (c : Char) : pairOp c ';' = none := by
  unfold pairOp
  split
  all_goals first | rfl | simp_all

theorem operator_seam {c : Char} {cs rest post : List Char} {o : Op} (hpost : ∀ c', post.head? = some c' → pairOp c c' = none)
    (h : operator c cs = some (o, rest)) : operator c (cs ++ post) = some (o, rest ++ post) := by
  rcases cs with _ | ⟨c', cs⟩
  · have hpair : post.head?.bind (pairOp c) = none := Option.bind_eq_none_iff.2 hpost
    unfold operator at h ⊢
    rw [List.nil_append, hpair]
    obtain ⟨o', ho, heq⟩ := Option.map_eq_some_iff.1 h
    cases heq
    rw [ho]
    rfl
  · unfold operator at h ⊢
    simp only [List.cons_append, List.head?_cons, Option.bind_some, List.tail_cons] at h ⊢
    split at h
    · cases h
      rfl
    · obtain ⟨o', ho, heq⟩ := Option.map_eq_some_iff.1 h
      cases heq
      rw [ho]
      rfl

section

variable {tab : CharTable}

theorem isSpace_semicolon : tab.isSpace ';' = false := by
  rw [Bool.eq_false_iff, Ne, tab.isSpace_ascii ';' (by decide)]
  decide

theorem isSpace_quote : tab.isSpace '\'' = false := by
  rw [Bool.eq_false_iff, Ne, tab.isSpace_ascii '\'' (by decide)]
  decide

theorem digit_semicolon : tab.digit ';' = none := tab.digit_ascii ';' (by decide)

theorem breaks_semicolon : Breaks tab ';' := ⟨isSpace_semicolon, digit_semicolon, rfl, pairOp_semicolon, by decide⟩

theorem Seam.boundary {post : List Char} (h : Seam post) : Boundary tab post := fun c hc => h c hc ▸ breaks_semicolon

theorem readNumber_suffix {ds : List Nat} {cs rest : List Char} {t : Token} (h : readNumber tab ds cs = .ok (t, rest)) :
    rest <:+ cs := by
  unfold readNumber at h
  split at h
  · simp only at h
    split at h
    · obtain ⟨t', -, heq⟩ := map_eq_ok.1 h
      cases heq
      exact List.suffix_refl _
    · cases h
      exact (spanSome_suffix _ _).trans (List.suffix_cons _ _)
  · obtain ⟨t', -, heq⟩ := map_eq_ok.1 h
    cases heq
    exact List.suffix_refl _

theorem readNumber_seam {ds : List Nat} {cs rest post : List Char} {t : Token} (hpost : Boundary tab post)
    (h : readNumber tab ds cs = .ok (t, rest)) : readNumber tab ds (cs ++ post) = .ok (t, rest ++ post) := by
  by_cases hdot : ∃ cs', cs = '.' :: cs'
  · obtain ⟨cs', rfl⟩ := hdot
    simp only [List.cons_append, readNumber, spanSome_seam fun c hc => (hpost c hc).digit] at h ⊢
    split at h
    · obtain ⟨t', ht, heq⟩ := map_eq_ok.1 h
      cases heq
      rw [if_pos (by assumption), ht]
      rfl
    · cases h
      rw [if_neg (by assumption)]
  · have hkeep : ∀ cs : List Char, (∀ cs', cs ≠ '.' :: cs') → readNumber tab ds cs = (readInt tab ds).map (·, cs) := by
      intro cs hcs
      unfold readNumber
      split
      · exact absurd rfl (hcs _)
      · rfl
    rw [hkeep cs fun cs' heq => hdot ⟨cs', heq⟩] at h
    obtain ⟨t', ht, heq⟩ := map_eq_ok.1 h
    cases heq
    rw [hkeep, ht]
    · rfl
    · intro cs' heq
      rcases cs with _ | ⟨c, cs⟩
      · rw [List.nil_append] at heq
        exact (hpost '.' (by rw [heq]; rfl)).dot rfl
      · exact hdot ⟨cs, by rw [(List.cons.inj heq).1]⟩

theorem identPart_start {c : Char} (h : isIdentStart c = true) : identPart c = some c := by
  unfold isIdentStart at h
  unfold identPart
  refine if_pos ?_
  rcases Bool.or_eq_true_iff.1 h with h | h
  · simp [Char.isAlphanum, h]
  · rw [h, Bool.or_true]

theorem nextToken_suffix {pos : Nat} {c : Char} {cs rest : List Char} {t : Option Token}
    (h : nextToken tab pos c cs = .ok (t, rest)) : rest <:+ cs := by
  unfold nextToken at h
  split at h
  · cases h
    exact spanSome_suffix _ _
  split at h
  · split at h
    · rename_i hscan
      cases h
      exact scanString_suffix hscan
    · cases h
  split at h
  · rename_i hdigit
    obtain ⟨d, hd⟩ := Option.isSome_iff_exists.1 hdigit
    simp only [spanSome, hd] at h
    obtain ⟨⟨t', rest'⟩, hnum, heq⟩ := map_eq_ok.1 h
    cases heq
    exact (readNumber_suffix hnum).trans (spanSome_suffix _ _)
  split at h
  · rename_i hstart
    simp only [spanSome, identPart_start hstart] at h
    cases h
    exact spanSome_suffix _ _
  · split at h
    · rename_i hop
      cases h
      exact operator_suffix hop
    · cases h

theorem nextToken_seam {pos pos' : Nat} {c : Char} {cs rest post : List Char} {t : Option Token} (hpost : Boundary tab post)
    (h : nextToken tab pos c cs = .ok (t, rest)) (hquote : ∀ r, rest = '\'' :: r → scanString r ≠ none)
    (hend : (c :: cs).getLast? = some '\'' → post.head? ≠ some '\'') :
    nextToken tab pos' c (cs ++ post) = .ok (t, rest ++ post) := by
  unfold nextToken at h ⊢
  split at h
  · rename_i hspace
    cases h
    rw [if_pos hspace, spanSome_seam fun c hc => if_neg (by simp [(hpost c hc).space])]
  rename_i hspace
  rw [if_neg hspace]
  split at h
  · rename_i hc
    rw [if_pos hc]
    split at h
    · rename_i hscan
      cases h
      have hrest : ∀ r, rest ++ post ≠ '\'' :: r := by
        intro r heq
        rcases rest with _ | ⟨c', rest⟩
        · refine hend ?_ (by rw [List.nil_append] at heq; rw [heq]; rfl)
          rw [List.getLast?_cons, getLast?_of_scanString hscan]
          rfl
        · obtain rfl : c' = '\'' := (List.cons.inj heq).1
          exact hquote rest rfl (scanString_quote hscan)
      rw [scanString_seam hscan hrest]
    · cases h
  rename_i hc
  rw [if_neg hc]
  split at h
  · rename_i hdigit
    obtain ⟨d, hd⟩ := Option.isSome_iff_exists.1 hdigit
    rw [if_pos hdigit]
    simp only [spanSome, hd, spanSome_seam fun c hc => (hpost c hc).digit] at h ⊢
    obtain ⟨⟨t', rest'⟩, hnum, heq⟩ := map_eq_ok.1 h
    cases heq
    rw [readNumber_seam hpost hnum]
    rfl
  rename_i hdigit
  rw [if_neg hdigit]
  split at h
  · rename_i hstart
    rw [if_pos hstart]
    simp only [spanSome, identPart_start hstart, spanSome_seam fun c hc => (hpost c hc).ident] at h ⊢
    cases h
    rfl
  · rename_i hstart
    rw [if_neg hstart]
    split at h
    · rename_i hop
      cases h
      rw [operator_seam (fun c' hc => (hpost c' hc).pair c) hop]
    · cases h

theorem scanString_of_nextToken {pos : Nat} {cs : List Char} {r : Option Token × List Char}
    (h : nextToken tab pos '\'' cs = .ok r) : scanString cs ≠ none := by
  intro hscan
  simp only [nextToken, isSpace_quote, Bool.false_eq_true, if_false, if_true, hscan] at h
  cases h

/-- Enough rounds are enough. -/
theorem lexFrom_rounds {n m pos : Nat} {cs : List Char} (hn : cs.length ≤ n) (hm : cs.length ≤ m) :
    lexFrom tab n pos cs = lexFrom tab m pos cs := by
  induction n generalizing m pos cs with
  | zero =>
    obtain rfl := List.eq_nil_of_length_eq_zero (Nat.le_zero.1 hn)
    cases m <;> rfl
  | succ n ih =>
    rcases cs with _ | ⟨c, cs⟩
    · cases m <;> rfl
    rw [List.length_cons] at hn hm
    obtain ⟨m, rfl⟩ : ∃ k, m = k + 1 := Nat.exists_eq_succ_of_ne_zero (by omega)
    unfold lexFrom
    cases hnext : nextToken tab pos c cs with
    | error e => rfl
    | ok r =>
      obtain ⟨t, rest⟩ := r
      have hle := (nextToken_suffix hnext).length_le
      show (lexFrom tab n _ rest >>= _) = (lexFrom tab m _ rest >>= _)
      rw [ih (m := m) (by omega) (by omega)]

/-- In front of a boundary a text has the tokens it has alone, unless a string ends it and another one follows. -/
theorem lexFrom_seam {n n' m pos o : Nat} {cs post : List Char} {ts us : List Located} (hpost : Boundary tab post)
    (hend : cs.getLast? = some '\'' → post.head? ≠ some '\'') (hn : cs.length ≤ n)
    (h : lexFrom tab n pos cs = .ok ts) (hn' : (cs ++ post).length ≤ n') (hm : post.length ≤ m)
    (hus : lexFrom tab m (pos + cs.length + o) post = .ok us) :
    lexFrom tab n' (pos + o) (cs ++ post) = .ok (ts.map (Located.shift o) ++ us) := by
  induction n generalizing n' pos cs ts with
  | zero =>
    obtain rfl := List.eq_nil_of_length_eq_zero (Nat.le_zero.1 hn)
    cases h
    exact (lexFrom_rounds hn' hm).trans hus
  | succ n ih =>
    rcases cs with _ | ⟨c, cs⟩
    · cases h
      exact (lexFrom_rounds hn' hm).trans hus
    rw [List.cons_append, List.length_cons, List.length_append] at hn'
    obtain ⟨n', rfl⟩ : ∃ k, n' = k + 1 := Nat.exists_eq_succ_of_ne_zero (by omega)
    unfold lexFrom at h
    obtain ⟨⟨t, rest⟩, hnext, h⟩ := do_eq_ok.1 h
    obtain ⟨ts₁, hts, h⟩ := do_eq_ok.1 h
    cases h
    have hle : rest.length ≤ cs.length := (nextToken_suffix hnext).length_le
    have hquote : ∀ r, rest = '\'' :: r → scanString r ≠ none := by
      rintro r rfl
      obtain ⟨n, rfl⟩ : ∃ k, n = k + 1 := Nat.exists_eq_succ_of_ne_zero (by
        rw [List.length_cons] at hn hle
        omega)
      unfold lexFrom at hts
      obtain ⟨r', hr, -⟩ := do_eq_ok.1 hts
      exact scanString_of_nextToken hr
    have hend' : rest.getLast? = some '\'' → post.head? ≠ some '\'' := by
      intro hlast
      refine hend ?_
      obtain ⟨used, rfl⟩ := nextToken_suffix hnext
      rw [← List.cons_append, List.getLast?_append, hlast]
      rfl
    rw [List.length_cons] at hn hus
    have hrest : lexFrom tab n' (pos + ((c :: cs).length - rest.length) + o) (rest ++ post) =
        .ok (ts₁.map (Located.shift o) ++ us) := ih hend' (by omega) hts (by rw [List.length_append]; omega) (by
        rw [List.length_cons, show pos + (cs.length + 1 - rest.length) + rest.length = pos + (cs.length + 1) by omega]
        exact hus)
    have hstop : pos + o + ((c :: (cs ++ post)).length - (rest ++ post).length) =
        pos + ((c :: cs).length - rest.length) + o := by
      rw [List.length_cons, List.length_append, List.length_append, List.length_cons]
      omega
    rw [List.cons_append, lexFrom, nextToken_seam hpost hnext hquote hend]
    show (lexFrom tab n' (pos + o + ((c :: (cs ++ post)).length - (rest ++ post).length)) (rest ++ post) >>= _) = _
    rw [hstop, hrest]
    cases t <;> rfl

/-- A token ends within the text. -/
theorem stop_le {n pos : Nat} {cs : List Char} {ts : List Located} (h : lexFrom tab n pos cs = .ok ts) {t : Located}
    (ht : t ∈ ts) : t.stop ≤ pos + cs.length := by
  induction n generalizing pos cs ts with
  | zero =>
    cases h
    cases ht
  | succ n ih =>
    rcases cs with _ | ⟨c, cs⟩
    · cases h
      cases ht
    unfold lexFrom at h
    obtain ⟨⟨t', rest⟩, hnext, h⟩ := do_eq_ok.1 h
    obtain ⟨ts₁, hts, h⟩ := do_eq_ok.1 h
    have hle : rest.length ≤ cs.length := (nextToken_suffix hnext).length_le
    have hrest : t ∈ ts₁ → t.stop ≤ pos + (c :: cs).length := by
      intro ht
      have := ih hts ht
      rw [List.length_cons] at this ⊢
      omega
    cases h
    cases t' with
    | none => exact hrest ht
    | some token =>
      rcases List.mem_cons.1 ht with rfl | ht
      · exact Nat.add_le_add_left (Nat.sub_le _ _) _
      · exact hrest ht

end

end Lexer

end LeafDb
