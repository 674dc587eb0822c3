import LeafDb.Sql.ParseAppend
import LeafDb.Sql.ParseStatement

/-!
# A script is the sequence of its statements

Every production of the statement parser decides at a semicolon as at the end of the input, so it reads from the
tokens of a text, put into a script (`Continues`), the statement it reads from the text alone: the expressions have
the identities of their nodes moved, the labels are the same. `parse_script` of texts joined by semicolons therefore
returns the statements of the texts, in order (`parseScript_joined`).
-/

namespace LeafDb

/-! ### The same statement with other nodes -/

def SelectItem.mapExpr (f : Expr → Expr) : SelectItem → SelectItem
  | .star => .star
  | .expr e label => .expr (f e) label

def OrderItem.mapExpr (f : Expr → Expr) (o : OrderItem) : OrderItem := ⟨f o.expr, o.desc⟩

def JoinClause.mapExpr (f : Expr → Expr) (j : JoinClause) : JoinClause := { j with on := f j.on }

def SelectStmt.mapExpr (f : Expr → Expr) (sel : SelectStmt) : SelectStmt :=
  { sel with
    joins := sel.joins.map (JoinClause.mapExpr f)
    where? := sel.where?.map f
    items := sel.items.map (SelectItem.mapExpr f)
    groupBy := sel.groupBy.map f
    having? := sel.having?.map f
    orderBy := sel.orderBy.map (OrderItem.mapExpr f) }

def Stmt.mapExpr (f : Expr → Expr) : Stmt → Stmt
  | .select sel => .select (sel.mapExpr f)
  | .insert s => .insert { s with rows := s.rows.map (List.map f) }
  | .delete s => .delete { s with where? := s.where?.map f }
  | .update s => .update { s with assignments := s.assignments.map fun a => (a.1, f a.2), where? := s.where?.map f }
  | .explain s => .explain (s.mapExpr f)
  | s => s

/-- The same tree, with all its labels; the identities of the nodes are other ones, all moved by the same number. -/
def SameTree (s s' : Stmt) : Prop := ∃ k, s' = s.mapExpr (Expr.shift k)

namespace StmtParser

/-- The tokens `ts` of a text of `len` characters, `o` characters further on in a script, and the tokens `rest` that
follow there. -/
def Continues (o len : Nat) (rest ts ts' : List Located) : Prop :=
  ts' = ts.map (Located.shift o) ++ rest ∧ ∀ t ∈ ts, t.stop ≤ len

section

variable {o len : Nat} {rest : List Located} (hrest : Parser.Closes (rest.map Located.token)) {α β : Type}

/-- The parser reads the same in the script, up to `φ`. -/
abbrev Keeps (o len : Nat) (rest : List Located) (φ : α → α) (p p' : StmtParser α) : Prop :=
  Sim (Continues o len rest) (fun a a' => a' = φ a) p p'

theorem Keeps.bind {φ : α → α} {ψ : β → β} {p p' : StmtParser α} {f f' : α → StmtParser β} (h : Keeps o len rest φ p p')
    (hf : ∀ a, Keeps o len rest ψ (f a) (f' (φ a))) : Keeps o len rest ψ (p >>= f) (p' >>= f') :=
  Sim.bind h fun a _ ha => ha ▸ hf a

theorem Keeps.pure {φ : α → α} {a a' : α} (h : a' = φ a) : Keeps o len rest φ (Pure.pure a) (Pure.pure a') := Sim.pure h

theorem Keeps.map {φ : α → α} {ψ : β → β} {p p' : StmtParser α} (h : Keeps o len rest φ p p') (g : α → β)
    (hg : ∀ a, g (φ a) = ψ (g a)) : Keeps o len rest ψ (do return g (← p)) (do return g (← p')) :=
  Keeps.bind h fun a => Keeps.pure (hg a)

theorem Keeps.ite {φ : α → α} {c : Bool} {p p' q q' : StmtParser α} (hp : Keeps o len rest φ p p')
    (hq : Keeps o len rest φ q q') : Keeps o len rest φ (if c = true then p else q) (if c = true then p' else q') := by
  cases c
  · exact hq
  · exact hp

include hrest

/-! ### Tokens -/

/-- A parser that looks at the next token and takes it or not. -/
theorem keeps_of_head {p : StmtParser α} (f : Option Token → Except StatementError (α × Bool))
    (hp : ∀ ts, p ts = (f (ts.head?.map Located.token)).map fun r => (r.1, if r.2 then ts.tail else ts))
    (hf : ∀ r, f none = .ok r → r.2 = false ∧ f (some (.op .semicolon)) = .ok r) : Keeps o len rest id p p := by
  rintro ts _ ⟨rfl, hstop⟩
  rw [hp, hp]
  rcases ts with _ | ⟨t, ts⟩
  · show Agrees _ _ _ ((f none).map _) _
    cases hnone : f none with
    | error e => exact .error
    | ok r =>
      obtain ⟨a, b⟩ := r
      obtain ⟨rfl, hsemi⟩ := hf (a, b) hnone
      have hhead : f (rest.head?.map Located.token) = .ok (a, false) := by
        rcases rest with _ | ⟨t, rest⟩
        · exact hnone
        · rw [List.head?_cons, Option.map_some, hrest t.token _ rfl]
          exact hsemi
      rw [List.map_nil, List.nil_append, hhead]
      exact .ok rfl ⟨rfl, hstop⟩ (List.suffix_refl _)
  · show Agrees _ _ _ ((f (some t.token)).map _) ((f (some t.token)).map _)
    cases f (some t.token) with
    | error e => exact .error
    | ok r =>
      obtain ⟨a, b⟩ := r
      cases b with
      | false => exact .ok rfl ⟨rfl, hstop⟩ (List.suffix_refl _)
      | true => exact .ok rfl ⟨rfl, fun t ht => hstop t (List.mem_cons_of_mem _ ht)⟩ (List.suffix_cons _ _)

theorem accept_keeps {t : Token} (ht : t ≠ .op .semicolon) : Keeps o len rest id (accept t) (accept t) := by
  refine keeps_of_head hrest (fun t' => .ok (if t' = some t then (true, true) else (false, false))) (fun ts => ?_) ?_
  · show (if _ then _ else _ : StmtParser Bool) ts = _
    split <;> rfl
  · rintro r hr
    cases hr
    exact ⟨rfl, by rw [if_neg fun h => ht (Option.some.inj h).symm]; rfl⟩

theorem expectKw_keeps (k : Keyword) : Keeps o len rest id (expectKw k) (expectKw k) := by
  refine keeps_of_head hrest (fun t => if t = some (.kw k) then .ok ((), true) else .error (.expectedKw k t))
    (fun ts => ?_) ?_
  · show (if _ then _ else _ : StmtParser Unit) ts = _
    split <;> rfl
  · rintro r hr
    cases hr

theorem expectOp_keeps (op : Op) : Keeps o len rest id (expectOp op) (expectOp op) := by
  refine keeps_of_head hrest (fun t => if t = some (.op op) then .ok ((), true) else .error (.expectedOp op t))
    (fun ts => ?_) ?_
  · show (if _ then _ else _ : StmtParser Unit) ts = _
    split <;> rfl
  · rintro r hr
    cases hr

/-- What `expectIdent` makes of the next token, and whether it consumes it. -/
def headIdent (what : String) : Option Token → Except StatementError (String × Bool)
  | some (.ident name) => .ok (name.toLower, true)
  | some (.kw k) =>
    match k.identOk with
    | some value => .ok (value.toLower, true)
    | none => .error (.expectedIdent what (some (.kw k)))
  | t => .error (.expectedIdent what t)

theorem expectIdent_keeps (what : String) : Keeps o len rest id (expectIdent what) (expectIdent what) := by
  refine keeps_of_head hrest (headIdent what) (fun ts => ?_) ?_
  · rcases ts with _ | ⟨⟨t, pos, stop⟩, ts⟩
    · rfl
    · cases t with
      | kw k => cases k <;> rfl
      | _ => rfl
  · rintro r hr
    cases hr

/-- What `acceptIdent` makes of the next token. -/
def headIdent? : Option Token → Except StatementError (Option String × Bool)
  | some (.ident name) => .ok (some name, true)
  | _ => .ok (none, false)

theorem acceptIdent_keeps : Keeps o len rest id acceptIdent acceptIdent := by
  refine keeps_of_head hrest headIdent? (fun ts => ?_) ?_
  · rcases ts with _ | ⟨⟨t, pos, stop⟩, ts⟩
    · rfl
    · cases t <;> rfl
  · rintro r hr
    cases hr
    exact ⟨rfl, rfl⟩

/-- What `expectInt` makes of the next token. -/
def headInt (what : Keyword) : Option Token → Except StatementError (Nat × Bool)
  | some (.int n) => .ok (n, true)
  | _ => .error (.expectsInt what)

theorem expectInt_keeps (what : Keyword) : Keeps o len rest id (expectInt what) (expectInt what) := by
  refine keeps_of_head hrest (headInt what) (fun ts => ?_) ?_
  · rcases ts with _ | ⟨⟨t, pos, stop⟩, ts⟩
    · rfl
    · cases t <;> rfl
  · rintro r hr
    cases hr

/-- What `expectType` makes of the next token. -/
def headType : Option Token → Except StatementError (ColType × Bool)
  | some (.kw .INT) => .ok (.int, true)
  | some (.kw .FLOAT) => .ok (.float, true)
  | some (.kw .TEXT) => .ok (.text, true)
  | some (.ident name) => .error (.unknownType name)
  | t => .error (.expectedType t)

theorem expectType_keeps : Keeps o len rest id expectType expectType := by
  refine keeps_of_head hrest headType (fun ts => ?_) ?_
  · rcases ts with _ | ⟨⟨t, pos, stop⟩, ts⟩
    · rfl
    · cases t with
      | kw k => cases k <;> rfl
      | _ => rfl
  · rintro r hr
    cases hr

/-- A parser that goes on as the next token says. -/
theorem keeps_of_peek {φ : α → α} {f f' : Option Token → StmtParser α}
    (hf : ∀ t ts, (∀ u ∈ t :: ts, u.stop ≤ len) → Agrees (Continues o len rest) (fun a a' => a' = φ a) (t :: ts)
      (f (some t.token) (t :: ts)) (f' (some t.token) ((t :: ts).map (Located.shift o) ++ rest)))
    (hnone : Keeps o len rest φ (f none) (f' none))
    (hsemi : Keeps o len rest φ (f none) (f' (some (.op .semicolon)))) :
    Keeps o len rest φ (peek >>= f) (peek >>= f') := by
  rintro ts _ ⟨rfl, hstop⟩
  rcases ts with _ | ⟨t, ts⟩
  · show Agrees _ _ _ (f none []) (f' (rest.head?.map Located.token) rest)
    have hhead : rest.head?.map Located.token = none ∨ rest.head?.map Located.token = some (.op .semicolon) := by
      rcases rest with _ | ⟨t, rest⟩
      · exact .inl rfl
      · exact .inr (congrArg some (hrest t.token _ rfl))
    rcases hhead with hhead | hhead
    · rw [hhead]
      exact hnone [] _ ⟨rfl, hstop⟩
    · rw [hhead]
      exact hsemi [] _ ⟨rfl, hstop⟩
  · exact hf t ts hstop

omit hrest in
theorem next_agrees {φ : α → α} {p p' : StmtParser α} (hp : Keeps o len rest φ p p') {t : Located} {ts : List Located}
    (hstop : ∀ u ∈ t :: ts, u.stop ≤ len) : Agrees (Continues o len rest) (fun a a' => a' = φ a) (t :: ts)
      ((next >>= fun _ => p) (t :: ts)) ((next >>= fun _ => p') ((t :: ts).map (Located.shift o) ++ rest)) :=
  (hp ts _ ⟨rfl, fun u hu => hstop u (List.mem_cons_of_mem _ hu)⟩).mono (List.suffix_cons t ts)

/-! ### Optional and repeated parts -/

theorem optional_keeps {φ : α → α} {p p' : StmtParser α} (k : Keyword) (hp : Keeps o len rest φ p p') :
    Keeps o len rest (Option.map φ) (optional k p) (optional k p') := by
  refine Keeps.bind (accept_keeps hrest (by simp)) fun b => Keeps.ite ?_ (Keeps.pure rfl)
  exact Keeps.bind hp fun a => Keeps.pure rfl

theorem afterComma_keeps {φ : α → α} {p p' : StmtParser α} (hp : Keeps o len rest φ p p') :
    Keeps o len rest (Option.map φ) (afterComma p) (afterComma p') := by
  refine Keeps.bind (accept_keeps hrest (by simp)) fun b => Keeps.ite ?_ (Keeps.pure rfl)
  exact Keeps.bind hp fun a => Keeps.pure rfl

omit hrest in
theorem loop_keeps {φ : α → α} {p p' : StmtParser (Option α)} (hp : Keeps o len rest (Option.map φ) p p') {n n' : Nat}
    (h : n ≤ n') : Keeps o len rest (List.map φ) (loop p n) (loop p' n') := by
  induction n generalizing n' with
  | zero => exact Sim.throw
  | succ n ih =>
    obtain ⟨n', rfl⟩ : ∃ m, n' = m + 1 := Nat.exists_eq_succ_of_ne_zero (by omega)
    refine Keeps.bind hp fun a => ?_
    cases a with
    | none => exact Keeps.pure rfl
    | some a => exact Keeps.bind (ih (Nat.le_of_succ_le_succ h)) fun as => Keeps.pure rfl

omit hrest in
theorem repeated_keeps {φ : α → α} {p p' : StmtParser (Option α)} (hp : Keeps o len rest (Option.map φ) p p') :
    Keeps o len rest (List.map φ) (repeated p) (repeated p') := by
  rintro ts _ ⟨rfl, hstop⟩
  refine loop_keeps hp ?_ ts _ ⟨rfl, hstop⟩
  rw [List.length_append, List.length_map]
  omega

theorem commaList_keeps {φ : α → α} {p p' : StmtParser α} (hp : Keeps o len rest φ p p') :
    Keeps o len rest (List.map φ) (commaList p) (commaList p') :=
  Keeps.bind hp fun _ => Keeps.bind (repeated_keeps (afterComma_keeps hrest hp)) fun _ => Keeps.pure rfl

theorem expression_keeps : Keeps o len rest (Expr.shift rest.length) expression expression := by
  rintro ts _ ⟨rfl, hstop⟩ e left h
  unfold expression at h ⊢
  cases hparse : Parser.parseExpression (ts.map Located.token) with
  | error err =>
    rw [hparse] at h
    cases h
  | ok r =>
    obtain ⟨e₁, left₁⟩ := r
    rw [hparse] at h
    cases h
    obtain ⟨hs, e', _, hparse', he, rfl⟩ := Parser.parseExpression_stable hrest _ _ rfl e left₁ hparse
    have hle : left₁.length ≤ ts.length := by
      have := hs.length_le
      rwa [List.length_map] at this
    have htokens : (ts.map (Located.shift o) ++ rest).map Located.token =
        ts.map Located.token ++ rest.map Located.token := by
      rw [List.map_append, List.map_map]
      rfl
    refine ⟨List.drop_suffix _ _, e', _, ?_, by rw [he, List.length_map], rfl, fun t ht => hstop t (List.mem_of_mem_drop ht)⟩
    rw [htokens, hparse']
    have hdrop : (ts.map (Located.shift o) ++ rest).length - (left₁ ++ rest.map Located.token).length =
        ts.length - left₁.length := by
      simp only [List.length_append, List.length_map]
      omega
    simp only [hdrop]
    rw [List.drop_append_of_le_length (by rw [List.length_map]; omega), List.map_drop]

/-! ### SELECT -/

omit hrest in
theorem defaultLabel_shift (k : Nat) (e : Expr) : defaultLabel (e.shift k) = defaultLabel e := by
  cases e with
  | func id name arg star distinct =>
    cases arg with
    | none => cases star <;> rfl
    | some e =>
      cases star with
      | true => rfl
      | false =>
        cases e with
        | column c table => cases table <;> rfl
        | func id name arg star distinct => cases arg <;> rfl
        | _ => rfl
  | _ => rfl

theorem parseAlias_keeps : Keeps o len rest id parseAlias parseAlias := by
  refine Keeps.bind (accept_keeps hrest (by simp)) fun b => Keeps.ite ?_ (acceptIdent_keeps hrest)
  exact Keeps.bind (expectIdent_keeps hrest _) fun _ => Keeps.pure rfl

theorem atCall_keeps : Keeps o len rest id atCall atCall := by
  rintro ts _ ⟨rfl, hstop⟩
  have hsame : ∃ b, atCall ts = .ok (b, ts) ∧
      atCall (ts.map (Located.shift o) ++ rest) = .ok (b, ts.map (Located.shift o) ++ rest) := by
    rcases ts with _ | ⟨⟨t, pos, stop⟩, ts⟩
    · refine ⟨false, rfl, ?_⟩
      rcases rest with _ | ⟨⟨t, pos, stop⟩, rest⟩
      · rfl
      · obtain rfl : t = .op .semicolon := hrest t _ rfl
        rfl
    · cases t with
      | kw k =>
        refine ⟨k.aggregate.isSome && decide (ts.head?.map Located.token = some (.op .lparen)), rfl, ?_⟩
        rcases ts with _ | ⟨t, ts⟩
        · rcases rest with _ | ⟨⟨t, pos, stop⟩, rest⟩
          · rfl
          · obtain rfl : t = .op .semicolon := hrest t _ rfl
            rfl
        · rfl
      | _ => exact ⟨false, rfl, rfl⟩
  obtain ⟨b, hb, hb'⟩ := hsame
  rw [hb, hb']
  exact .ok rfl ⟨rfl, hstop⟩ (List.suffix_refl _)

variable {tab : CharTable} {sql sql' : List Char}
  (hsql : ∀ pos stop, stop ≤ len → (sql'.drop (pos + o)).take (stop - pos) = (sql.drop pos).take (stop - pos))

include hsql

omit hrest in
theorem textOf_continues {ts ts' left left' : List Located} (hts : Continues o len rest ts ts')
    (hleft : Continues o len rest left left') : textOf tab sql' ts' left' = textOf tab sql ts left := by
  obtain ⟨rfl, hstop⟩ := hts
  obtain ⟨rfl, -⟩ := hleft
  have htake : (ts.map (Located.shift o) ++ rest).take
      ((ts.map (Located.shift o) ++ rest).length - (left.map (Located.shift o) ++ rest).length) =
      (ts.take (ts.length - left.length)).map (Located.shift o) := by
    rw [List.map_take, List.length_append, List.length_append, Nat.add_sub_add_right, List.length_map, List.length_map,
      List.take_append_of_le_length (by rw [List.length_map]; omega)]
  unfold textOf
  rw [htake, List.getLast?_map]
  rcases ts with _ | ⟨first, ts⟩
  · simp
  rw [List.map_cons, List.cons_append, List.head?_cons, List.head?_cons]
  cases hlast : ((first :: ts).take ((first :: ts).length - left.length)).getLast? with
  | none => rfl
  | some last =>
    have hmem := hstop last (List.mem_of_mem_take (List.mem_of_getLast? hlast))
    show textSlice tab sql' (first.shift o) (last.shift o) = textSlice tab sql first last
    unfold textSlice
    rw [← hsql first.pos last.stop hmem]
    show String.ofList (strip tab ((sql'.drop (first.pos + o)).take (last.stop + o - (first.pos + o)))) = _
    rw [Nat.add_sub_add_right]

omit hrest hsql in
theorem get_keeps : Sim (Continues o len rest) (Continues o len rest) (StateT.get : StmtParser (List Located)) StateT.get :=
  fun ts _ hts => .ok hts hts (List.suffix_refl ts)

theorem parseSelectItem_keeps : Keeps o len rest (SelectItem.mapExpr (Expr.shift rest.length)) (parseSelectItem tab sql)
    (parseSelectItem tab sql') := by
  refine Keeps.bind (accept_keeps hrest (by simp)) fun b => Keeps.ite (Keeps.pure rfl) ?_
  refine Keeps.bind (atCall_keeps hrest) fun b => Keeps.ite ?_ ?_
  · refine Keeps.bind (expression_keeps hrest) fun e => Keeps.bind (parseAlias_keeps hrest) fun alias? => Keeps.pure ?_
    rw [defaultLabel_shift]
    rfl
  · refine Sim.bind get_keeps fun start start' hstart => Sim.bind (expression_keeps hrest) ?_
    rintro e _ rfl
    refine Sim.bind get_keeps fun left left' hleft => Keeps.bind (parseAlias_keeps hrest) fun alias? => Keeps.pure ?_
    rw [textOf_continues hsql hstart hleft]
    rfl

omit hsql in
theorem parseJoinRest_keeps (jtype : JoinType) :
    Keeps o len rest (JoinClause.mapExpr (Expr.shift rest.length)) (parseJoinRest jtype) (parseJoinRest jtype) := by
  refine Keeps.bind (expectIdent_keeps hrest _) fun table => Keeps.bind (parseAlias_keeps hrest) fun alias? => ?_
  refine Keeps.bind (expectKw_keeps hrest _) fun _ => Keeps.bind (expression_keeps hrest) fun on => ?_
  exact Keeps.pure rfl

omit hsql in
theorem parseJoinWord_agrees (jtype : JoinType) {t : Located} {ts : List Located} (hstop : ∀ u ∈ t :: ts, u.stop ≤ len) :
    Agrees (Continues o len rest) (fun j j' => j' = j.map (JoinClause.mapExpr (Expr.shift rest.length))) (t :: ts)
      (parseJoinWord jtype (t :: ts)) (parseJoinWord jtype ((t :: ts).map (Located.shift o) ++ rest)) := by
  refine next_agrees (Keeps.bind (accept_keeps hrest (by simp)) fun _ => Keeps.bind (expectKw_keeps hrest _) fun _ => ?_) hstop
  exact Keeps.bind (parseJoinRest_keeps hrest jtype) fun _ => Keeps.pure rfl

omit hsql in
theorem parseJoinOpt_keeps :
    Keeps o len rest (Option.map (JoinClause.mapExpr (Expr.shift rest.length))) parseJoinOpt parseJoinOpt := by
  refine keeps_of_peek hrest (fun t ts hstop => ?_) (Keeps.pure rfl) (Keeps.pure rfl)
  have hjoin : Keeps o len rest (Option.map (JoinClause.mapExpr (Expr.shift rest.length)))
      (do return some (← parseJoinRest .inner)) (do return some (← parseJoinRest .inner)) :=
    Keeps.bind (parseJoinRest_keeps hrest _) fun _ => Keeps.pure rfl
  have hnone : Agrees (Continues o len rest) (fun j j' => j' = j.map (JoinClause.mapExpr (Expr.shift rest.length)))
      (t :: ts) ((pure none : StmtParser (Option JoinClause)) (t :: ts))
      ((pure none : StmtParser (Option JoinClause)) ((t :: ts).map (Located.shift o) ++ rest)) :=
    .ok rfl ⟨rfl, hstop⟩ (List.suffix_refl _)
  obtain ⟨token, pos, stop⟩ := t
  cases token with
  | kw k =>
    cases k with
    | INNER => exact parseJoinWord_agrees hrest _ hstop
    | LEFT => exact parseJoinWord_agrees hrest _ hstop
    | RIGHT => exact parseJoinWord_agrees hrest _ hstop
    | FULL => exact parseJoinWord_agrees hrest _ hstop
    | JOIN => exact next_agrees hjoin hstop
    | _ => exact hnone
  | _ => exact hnone

omit hsql in
theorem parseOrderItem_keeps : Keeps o len rest (OrderItem.mapExpr (Expr.shift rest.length)) parseOrderItem parseOrderItem := by
  refine Keeps.bind (expression_keeps hrest) fun e => Keeps.bind (accept_keeps hrest (by simp)) fun b => ?_
  exact Keeps.ite (Keeps.pure rfl) (Keeps.bind (accept_keeps hrest (by simp)) fun _ => Keeps.pure rfl)

omit hsql in
theorem byList_keeps {φ : α → α} {p p' : StmtParser α} (k : Keyword) (hp : Keeps o len rest φ p p') :
    Keeps o len rest (List.map φ) (byList k p) (byList k p') := by
  refine Keeps.bind (accept_keeps hrest (by simp)) fun b => Keeps.ite ?_ (Keeps.pure rfl)
  exact Keeps.bind (expectKw_keeps hrest _) fun _ => commaList_keeps hrest hp

omit hsql in
theorem parseLimits_keeps : Keeps o len rest id parseLimits parseLimits := by
  refine Keeps.bind (optional_keeps hrest _ (expectInt_keeps hrest _)) fun limit? => ?_
  refine Keeps.bind (optional_keeps hrest _ (expectInt_keeps hrest _)) fun offset? => ?_
  rw [Option.map_id, id, id]
  exact Keeps.pure rfl

theorem parseSelect_keeps : Keeps o len rest (SelectStmt.mapExpr (Expr.shift rest.length)) (parseSelect tab sql)
    (parseSelect tab sql') := by
  refine Keeps.bind (expectKw_keeps hrest _) fun _ => Keeps.bind (accept_keeps hrest (by simp)) fun distinct => ?_
  refine Keeps.bind (commaList_keeps hrest (parseSelectItem_keeps hrest hsql)) fun items => ?_
  refine Keeps.bind (expectKw_keeps hrest _) fun _ => Keeps.bind (expectIdent_keeps hrest _) fun table => ?_
  refine Keeps.bind (parseAlias_keeps hrest) fun alias? => Keeps.bind (repeated_keeps (parseJoinOpt_keeps hrest)) fun joins => ?_
  refine Keeps.bind (optional_keeps hrest _ (expression_keeps hrest)) fun where? => ?_
  refine Keeps.bind (byList_keeps hrest _ (expression_keeps hrest)) fun groupBy => ?_
  refine Keeps.bind (optional_keeps hrest _ (expression_keeps hrest)) fun having? => ?_
  refine Keeps.bind (byList_keeps hrest _ (parseOrderItem_keeps hrest)) fun orderBy => ?_
  exact Keeps.bind (parseLimits_keeps hrest) fun limits => Keeps.pure rfl

/-! ### The other statements -/

omit hsql in
theorem parenList_keeps {φ : α → α} {p p' : StmtParser α} (hp : Keeps o len rest φ p p') :
    Keeps o len rest (List.map φ) (parenList p) (parenList p') := by
  refine Keeps.bind (expectOp_keeps hrest _) fun _ => Keeps.bind (commaList_keeps hrest hp) fun as => ?_
  exact Keeps.bind (expectOp_keeps hrest _) fun _ => Keeps.pure rfl

omit hsql in
theorem parseColumns_keeps : Keeps o len rest id parseColumns parseColumns := by
  refine keeps_of_peek hrest (fun t ts hstop => ?_) (Keeps.pure rfl) (Keeps.pure rfl)
  split
  · refine Keeps.bind (parenList_keeps hrest (expectIdent_keeps hrest _)) (fun columns => ?_) _ _ ⟨rfl, hstop⟩
    rw [List.map_id]
    exact Keeps.pure rfl
  · exact .ok rfl ⟨rfl, hstop⟩ (List.suffix_refl _)

omit hsql in
theorem parseInsert_keeps : Keeps o len rest (fun s => { s with rows := s.rows.map (List.map (Expr.shift rest.length)) })
    parseInsert parseInsert := by
  refine Keeps.bind (expectKw_keeps hrest _) fun _ => Keeps.bind (expectKw_keeps hrest _) fun _ => ?_
  refine Keeps.bind (expectIdent_keeps hrest _) fun table => Keeps.bind (parseColumns_keeps hrest) fun columns => ?_
  refine Keeps.bind (expectKw_keeps hrest _) fun _ => ?_
  exact Keeps.bind (commaList_keeps hrest (parenList_keeps hrest (expression_keeps hrest))) fun rows => Keeps.pure rfl

omit hsql in
theorem parseColumnDef_keeps : Keeps o len rest id parseColumnDef parseColumnDef := by
  refine Keeps.bind (expectIdent_keeps hrest _) fun name => Keeps.bind (expectType_keeps hrest) fun type => ?_
  refine Keeps.bind (accept_keeps hrest (by simp)) fun b => Keeps.ite ?_ (Keeps.pure rfl)
  exact Keeps.bind (expectKw_keeps hrest _) fun _ => Keeps.pure rfl

omit hsql in
theorem parseCreate_keeps : Keeps o len rest (Stmt.mapExpr (Expr.shift rest.length)) parseCreate parseCreate := by
  refine Keeps.bind (expectKw_keeps hrest _) fun _ => Keeps.bind (accept_keeps hrest (by simp)) fun b => Keeps.ite ?_ ?_
  · refine Keeps.bind (expectIdent_keeps hrest _) fun name => ?_
    refine Keeps.bind (parenList_keeps hrest (parseColumnDef_keeps hrest)) fun columns => ?_
    rw [List.map_id]
    exact Keeps.pure rfl
  · refine Keeps.bind (accept_keeps hrest (by simp)) fun b => Keeps.ite ?_ Sim.throw
    refine Keeps.bind (expectIdent_keeps hrest _) fun name => Keeps.bind (expectKw_keeps hrest _) fun _ => ?_
    refine Keeps.bind (expectIdent_keeps hrest _) fun table => Keeps.bind (expectOp_keeps hrest _) fun _ => ?_
    exact Keeps.bind (expectIdent_keeps hrest _) fun column => Keeps.bind (expectOp_keeps hrest _) fun _ => Keeps.pure rfl

omit hsql in
theorem parseDelete_keeps : Keeps o len rest (fun s => { s with where? := s.where?.map (Expr.shift rest.length) })
    parseDelete parseDelete := by
  refine Keeps.bind (expectKw_keeps hrest _) fun _ => Keeps.bind (expectKw_keeps hrest _) fun _ => ?_
  refine Keeps.bind (expectIdent_keeps hrest _) fun table => ?_
  exact Keeps.bind (optional_keeps hrest _ (expression_keeps hrest)) fun where? => Keeps.pure rfl

omit hsql in
theorem parseAssignment_keeps : Keeps o len rest (fun a => (a.1, a.2.shift rest.length)) parseAssignment parseAssignment := by
  refine Keeps.bind (expectIdent_keeps hrest _) fun col => Keeps.bind (expectOp_keeps hrest _) fun _ => ?_
  exact Keeps.bind (expression_keeps hrest) fun e => Keeps.pure rfl

omit hsql in
theorem parseUpdate_keeps : Keeps o len rest (fun s => { s with
      assignments := s.assignments.map fun a => (a.1, a.2.shift rest.length)
      where? := s.where?.map (Expr.shift rest.length) }) parseUpdate parseUpdate := by
  refine Keeps.bind (expectKw_keeps hrest _) fun _ => Keeps.bind (expectIdent_keeps hrest _) fun table => ?_
  refine Keeps.bind (expectKw_keeps hrest _) fun _ => Keeps.bind (commaList_keeps hrest (parseAssignment_keeps hrest)) fun as => ?_
  exact Keeps.bind (optional_keeps hrest _ (expression_keeps hrest)) fun where? => Keeps.pure rfl

omit hsql in
theorem parseDrop_agrees {t : Located} {ts : List Located} (hstop : ∀ u ∈ t :: ts, u.stop ≤ len) :
    Agrees (Continues o len rest) (fun s s' => s' = Stmt.mapExpr (Expr.shift rest.length) s) (t :: ts)
      (parseDrop (t :: ts)) (parseDrop ((t :: ts).map (Located.shift o) ++ rest)) := by
  refine next_agrees (Keeps.bind (accept_keeps hrest (by simp)) fun b => Keeps.ite ?_ ?_) hstop
  · exact Keeps.bind (expectIdent_keeps hrest _) fun name => Keeps.pure rfl
  · refine Keeps.bind (accept_keeps hrest (by simp)) fun b => Keeps.ite ?_ Sim.throw
    exact Keeps.bind (expectIdent_keeps hrest _) fun name => Keeps.pure rfl

theorem parsePlain_keeps : Keeps o len rest (Stmt.mapExpr (Expr.shift rest.length)) (parsePlain tab sql)
    (parsePlain tab sql') := by
  refine keeps_of_peek hrest (fun t ts hstop => ?_) Sim.throw Sim.throw
  have hts : Continues o len rest (t :: ts) ((t :: ts).map (Located.shift o) ++ rest) := ⟨rfl, hstop⟩
  obtain ⟨token, pos, stop⟩ := t
  cases token with
  | kw k =>
    cases k with
    | SELECT => exact Keeps.map (parseSelect_keeps hrest hsql) Stmt.select (fun _ => rfl) _ _ hts
    | INSERT => exact Keeps.map (parseInsert_keeps hrest) Stmt.insert (fun _ => rfl) _ _ hts
    | CREATE => exact parseCreate_keeps hrest _ _ hts
    | DELETE => exact Keeps.map (parseDelete_keeps hrest) Stmt.delete (fun _ => rfl) _ _ hts
    | UPDATE => exact Keeps.map (parseUpdate_keeps hrest) Stmt.update (fun _ => rfl) _ _ hts
    | DROP => exact parseDrop_agrees hrest hstop
    | BEGIN => exact next_agrees (p := pure Stmt.begin) (Keeps.pure rfl) hstop
    | COMMIT => exact next_agrees (p := pure Stmt.commit) (Keeps.pure rfl) hstop
    | ROLLBACK => exact next_agrees (p := pure Stmt.rollback) (Keeps.pure rfl) hstop
    | _ => exact .error
  | _ => exact .error

theorem parseStmt_keeps : Sim (Continues o len rest) (fun s s' => s' = Stmt.mapExpr (Expr.shift rest.length) s)
    (parseStmt tab sql) (parseStmt tab sql') := by
  rintro ts _ ⟨rfl, hstop⟩
  have hplain : Keeps o len rest _ (parsePlain tab sql) (parsePlain tab sql') := parsePlain_keeps hrest hsql
  induction ts with
  | nil =>
    have hend : parseStmt tab sql' rest = parsePlain tab sql' rest := by
      rcases rest with _ | ⟨t, rest⟩
      · rfl
      · exact if_neg (by rw [hrest t.token _ rfl]; simp)
    rw [List.map_nil, List.nil_append, hend]
    exact hplain [] _ ⟨rfl, hstop⟩
  | cons t ts ih =>
    rw [List.map_cons, List.cons_append, parseStmt, parseStmt]
    show Agrees _ _ _ _ (if t.token = .kw .EXPLAIN then _ else _)
    split
    · refine Agrees.bind ((ih fun u hu => hstop u (List.mem_cons_of_mem _ hu)).mono (List.suffix_cons t ts)) ?_
      rintro inner _ left left' hs rfl hleft
      have hexplained : Keeps o len rest (Stmt.mapExpr (Expr.shift rest.length)) (explained inner)
          (explained (inner.mapExpr (Expr.shift rest.length))) := by
        cases inner with
        | explain s => exact Sim.throw
        | _ => exact Keeps.pure rfl
      exact (hexplained left left' hleft).mono hs
    · exact hplain (t :: ts) _ ⟨rfl, hstop⟩

end

/-! ### Scripts -/

variable {tab : CharTable}

theorem nextToken_semicolon (pos : Nat) (cs : List Char) :
    Lexer.nextToken tab pos ';' cs = .ok (some (.op .semicolon), cs) := by
  have hpair : cs.head?.bind (Lexer.pairOp ';') = none := by
    cases cs.head? with
    | none => rfl
    | some c => rfl
  simp [Lexer.nextToken, Lexer.isSpace_semicolon, Lexer.digit_semicolon, Lexer.operator, hpair, Lexer.singleOp,
    Lexer.isIdentStart]

/-- The tokens of a text behind a semicolon. -/
theorem lexFrom_semicolon {n pos : Nat} {cs : List Char} {us : List Located} (h : Lexer.lexFrom tab n (pos + 1) cs = .ok us) :
    Lexer.lexFrom tab (n + 1) pos (';' :: cs) = .ok (⟨.op .semicolon, pos, pos + 1⟩ :: us) := by
  rw [Lexer.lexFrom, nextToken_semicolon]
  have hstop : pos + ((';' :: cs).length - cs.length) = pos + 1 := by
    rw [List.length_cons]
    omega
  show (Lexer.lexFrom tab n (pos + ((';' :: cs).length - cs.length)) cs >>= _) = _
  rw [hstop, h]
  rfl

theorem closes_of_seam {n pos : Nat} {cs : List Char} {us : List Located} (hcs : Lexer.Seam cs)
    (h : Lexer.lexFrom tab n pos cs = .ok us) : Parser.Closes (us.map Located.token) := by
  rintro t ts heq
  rcases hcs.cases with rfl | ⟨cs, rfl⟩
  · cases n <;> cases h <;> cases heq
  · cases n with
    | zero =>
      cases h
      cases heq
    | succ n =>
      unfold Lexer.lexFrom at h
      obtain ⟨r, hr, h⟩ := do_eq_ok.1 h
      rw [nextToken_semicolon] at hr
      cases hr
      obtain ⟨us₁, -, h⟩ := do_eq_ok.1 h
      cases h
      exact (List.cons.inj heq).1.symm

/-- Semicolons in front of a statement are skipped. -/
theorem scriptStmt_semicolon {sql : List Char} {t : Located} (ht : t.token = .op .semicolon) (us : List Located) :
    scriptStmt tab sql (t :: us) = scriptStmt tab sql us := by
  have hskip : skipSemicolons (t :: us) = skipSemicolons us := by
    show Except.ok ((), (t :: us).dropWhile _) = _
    rw [List.dropWhile_cons_of_pos (by simpa using ht)]
    rfl
  simp only [scriptStmt, bind, StateT.bind, hskip]

theorem loop_semicolon {sql : List Char} {t : Located} (ht : t.token = .op .semicolon) (us : List Located) (n : Nat) :
    loop (scriptStmt tab sql) n (t :: us) = loop (scriptStmt tab sql) n us := by
  cases n with
  | zero => rfl
  | succ n =>
    show (scriptStmt tab sql (t :: us) >>= _) = (scriptStmt tab sql us >>= _)
    rw [scriptStmt_semicolon ht]

theorem loop_some {p : StmtParser (Option α)} {n : Nat} {ts left left' : List Located} {a : α} {as : List α}
    (h : p ts = .ok (some a, left)) (hrest : loop p n left = .ok (as, left')) : loop p (n + 1) ts = .ok (a :: as, left') := by
  simp only [loop, bind, StateT.bind, Except.bind, h, hrest]
  rfl

theorem parseStmt_head {sql : List Char} {ts : List Located} {r : Stmt × List Located}
    (h : parseStmt tab sql ts = .ok r) : ∃ t ts', ts = t :: ts' ∧ t.token ≠ .op .semicolon := by
  rcases ts with _ | ⟨⟨t, pos, stop⟩, ts⟩
  · cases h
  · refine ⟨_, ts, rfl, ?_⟩
    rintro rfl
    cases h

section

variable {sql : List Char} {ts : List Located} {stmt : Stmt}

theorem scriptStmt_eq {left : List Located} (h : parseStmt tab sql ts = .ok (stmt, left)) :
    scriptStmt tab sql ts = endOfStmt stmt left := by
  obtain ⟨t, ts, rfl, ht⟩ := parseStmt_head h
  have hskip : skipSemicolons (t :: ts) = .ok ((), t :: ts) := by
    show Except.ok ((), (t :: ts).dropWhile _) = _
    rw [List.dropWhile_cons_of_neg (by simpa using ht)]
  have hget : (StateT.get : StmtParser (List Located)) (t :: ts) = .ok (t :: ts, t :: ts) := rfl
  have hempty : (t :: ts).isEmpty = false := rfl
  simp only [scriptStmt, bind, StateT.bind, hskip, Except.bind, get, getThe, MonadStateOf.get, hget, hempty,
    Bool.false_eq_true, if_false, h]

theorem scriptStmt_separated {t : Located} {left : List Located} (ht : t.token = .op .semicolon)
    (h : parseStmt tab sql ts = .ok (stmt, t :: left)) : scriptStmt tab sql ts = .ok (some stmt, left) := by
  rw [scriptStmt_eq h]
  obtain ⟨t, pos, stop⟩ := t
  obtain rfl : t = .op .semicolon := ht
  rfl

theorem scriptStmt_last (h : parseStmt tab sql ts = .ok (stmt, [])) : scriptStmt tab sql ts = .ok (some stmt, []) := by
  rw [scriptStmt_eq h]
  rfl

end

end StmtParser

open StmtParser

/-- The texts, with the given number of semicolons more than needed behind each. -/
def joinTexts : List (List Char × Nat) → List Char
  | [] => []
  | [(text, extra)] => text ++ List.replicate extra ';'
  | (text, extra) :: texts => text ++ List.replicate (extra + 1) ';' ++ joinTexts texts

/-- From the position of `cs` in `sql` on, the script has the statements `stmts` left. -/
def Reads (tab : CharTable) (pre cs : List Char) (stmts : List Stmt) : Prop :=
  ∃ us, Lexer.lexFrom tab cs.length pre.length cs = .ok us ∧
    ∀ n, us.length < n → ∃ stmts', loop (scriptStmt tab (pre ++ cs)) n us = .ok (stmts', []) ∧
      List.Forall₂ SameTree stmts stmts'

variable {tab : CharTable}

theorem reads_nil (pre : List Char) : Reads tab pre [] [] := by
  refine ⟨[], rfl, fun n hn => ⟨[], ?_, .nil⟩⟩
  obtain ⟨n, rfl⟩ : ∃ m, n = m + 1 := Nat.exists_eq_succ_of_ne_zero (by omega)
  rfl

theorem Reads.semicolons {pre cs : List Char} {stmts : List Stmt} (k : Nat)
    (h : Reads tab (pre ++ List.replicate k ';') cs stmts) : Reads tab pre (List.replicate k ';' ++ cs) stmts := by
  induction k generalizing pre with
  | zero =>
    rw [List.replicate_zero, List.append_nil] at h
    exact h
  | succ k ih =>
    rw [List.replicate_succ, List.cons_append]
    have hk : Reads tab (pre ++ [';'] ++ List.replicate k ';') cs stmts := by
      rw [List.append_assoc, List.singleton_append, ← List.replicate_succ]
      exact h
    obtain ⟨us, hlex, hloop⟩ := ih hk
    rw [show (pre ++ [';']).length = pre.length + 1 from List.length_append] at hlex
    refine ⟨_, lexFrom_semicolon hlex, fun n hn => ?_⟩
    rw [List.length_cons] at hn
    obtain ⟨stmts', hrun, hstmts⟩ := hloop n (by omega)
    refine ⟨stmts', ?_, hstmts⟩
    rw [loop_semicolon rfl, ← List.singleton_append, ← List.append_assoc]
    exact hrun

/-- A text that is accepted, in front of what is left of a script. -/
theorem Reads.text {pre text post : List Char} {stmt : Stmt} {stmts : List Stmt} (hpost : Lexer.Seam post)
    (htext : parseStatement tab text = .ok stmt) (h : Reads tab (pre ++ text) post stmts) :
    Reads tab pre (text ++ post) (stmt :: stmts) := by
  obtain ⟨us, hlex, hloop⟩ := h
  obtain ⟨ts, hts, htext⟩ := do_eq_ok.1 htext
  obtain ⟨⟨stmt₁, left⟩, hstmt, htext⟩ := do_eq_ok.1 htext
  have hpos : pre.length + text.length = 0 + text.length + pre.length := by omega
  rw [List.length_append, hpos] at hlex
  have hall := Lexer.lexFrom_seam (o := pre.length) hpost.boundary (fun _ => hpost.ne_quote) (Nat.le_refl _) hts
    (Nat.le_refl _) (Nat.le_refl _) hlex
  rw [Nat.zero_add] at hall
  refine ⟨_, hall, fun n hn => ?_⟩
  have hclose := closes_of_seam hpost hlex
  have hstop : ∀ t ∈ ts, t.stop ≤ text.length := fun t ht => (Lexer.stop_le hts ht).trans_eq (Nat.zero_add _)
  have hsql : ∀ pos stop, stop ≤ text.length →
      ((pre ++ (text ++ post)).drop (pos + pre.length)).take (stop - pos) = (text.drop pos).take (stop - pos) := by
    intro pos stop hle
    rw [Nat.add_comm pos, ← List.drop_drop, List.drop_left]
    by_cases hpos : pos ≤ text.length
    · rw [List.drop_append_of_le_length hpos, List.take_append_of_le_length (by rw [List.length_drop]; omega)]
    · rw [Nat.sub_eq_zero_of_le (by omega), List.take_zero, List.take_zero]
  obtain ⟨hs, stmt', _, hstmt', rfl, rfl, hstop'⟩ := parseStmt_keeps hclose hsql ts _ ⟨rfl, hstop⟩ stmt₁ left hstmt
  obtain ⟨rfl, hleft⟩ : stmt₁ = stmt ∧ (left = [] ∨ ∃ t : Located, t.token = .op .semicolon ∧ left = [t]) := by
    rcases left with _ | ⟨⟨t, pos, stop⟩, left⟩
    · cases htext
      exact ⟨rfl, .inl rfl⟩
    · by_cases ht : t = .op .semicolon
      · subst ht
        rcases left with _ | ⟨t', left⟩
        · cases htext
          exact ⟨rfl, .inr ⟨_, rfl, rfl⟩⟩
        · cases htext
      · have haccept : accept (.op .semicolon) (⟨t, pos, stop⟩ :: left) = .ok (false, ⟨t, pos, stop⟩ :: left) := by
          show (if some t = some (.op .semicolon) then _ else _ : StmtParser Bool) _ = _
          rw [if_neg fun heq => ht (Option.some.inj heq)]
          rfl
        simp only [haccept] at htext
        cases htext
  obtain ⟨t, ts₁, hcons, -⟩ := parseStmt_head hstmt
  obtain ⟨n, rfl⟩ : ∃ m, n = m + 1 := Nat.exists_eq_succ_of_ne_zero (by omega)
  have hlt : us.length < n := by
    rw [hcons, List.length_append, List.length_map, List.length_cons] at hn
    omega
  rw [← List.append_assoc] at hstmt' ⊢
  obtain ⟨stmts', hrun, hstmts⟩ := hloop n hlt
  refine ⟨stmt₁.mapExpr (Expr.shift us.length) :: stmts', ?_, .cons ⟨_, rfl⟩ hstmts⟩
  rcases hleft with rfl | ⟨semi, hsemi, rfl⟩
  · rcases us with _ | ⟨u, us⟩
    · exact loop_some (scriptStmt_last hstmt') hrun
    · have hu : u.token = .op .semicolon := hclose _ _ rfl
      rw [loop_semicolon hu] at hrun
      exact loop_some (scriptStmt_separated hu hstmt') hrun
  · exact loop_some (scriptStmt_separated (t := semi.shift pre.length) hsemi hstmt') hrun

/-- Scripts are the sequences of their statements: the texts joined by semicolons, with any number of semicolons in
front, between and behind them, are parsed as the statements of the texts. -/
theorem parseScript_joined (tab : CharTable) (lead : Nat) {texts : List (List Char × Nat)} {stmts : List Stmt}
    (h : List.Forall₂ (fun text stmt => parseStatement tab text.1 = .ok stmt) texts stmts) :
    ∃ stmts', parseScript tab (List.replicate lead ';' ++ joinTexts texts) = .ok stmts' ∧
      List.Forall₂ SameTree stmts stmts' := by
  have hreads : ∀ pre, Reads tab pre (joinTexts texts) stmts := by
    induction h with
    | nil => exact reads_nil
    | @cons text stmt texts stmts htext _ ih =>
      obtain ⟨text, extra⟩ := text
      intro pre
      have hseam : ∀ k cs, Lexer.Seam (List.replicate (k + 1) ';' ++ cs) := by
        rintro k cs c hc
        exact (Option.some.inj hc).symm
      rcases texts with _ | ⟨t, texts⟩
      · refine Reads.text ?_ htext ?_
        · cases extra with
          | zero => rintro c hc; cases hc
          | succ k => rw [← List.append_nil (List.replicate _ _)]; exact hseam k []
        · rw [← List.append_nil (List.replicate _ _)]
          exact Reads.semicolons _ (ih _)
      · rw [joinTexts, List.append_assoc]
        · exact Reads.text (hseam _ _) htext (Reads.semicolons _ (ih _))
        · simp
  obtain ⟨us, hlex, hloop⟩ : Reads tab [] (List.replicate lead ';' ++ joinTexts texts) stmts :=
    Reads.semicolons lead (hreads _)
  obtain ⟨stmts', hrun, hstmts⟩ := hloop (us.length + 1) (Nat.lt_succ_self _)
  refine ⟨stmts', ?_, hstmts⟩
  rw [List.nil_append] at hrun
  simp only [parseScript, Lexer.tokenize]
  rw [show Lexer.lexFrom tab _ 0 _ = _ from hlex]
  show (repeated (scriptStmt tab _) us >>= _) = _
  rw [show repeated (scriptStmt tab _) us = _ from hrun]
  rfl

/-- Two statements, the second with a semicolon of its own. -/
theorem parseScript_joined_two : ∃ select delete stmts', parseStatement asciiTable "SELECT x + 1 FROM t".toList = .ok select ∧
    parseStatement asciiTable "delete from t;".toList = .ok delete ∧
    parseScript asciiTable (List.replicate 0 ';' ++
      joinTexts [("SELECT x + 1 FROM t".toList, 1), ("delete from t;".toList, 2)]) = .ok stmts' ∧
    List.Forall₂ SameTree [select, delete] stmts' := by
  have accepted : ∀ {r : Except StatementError Stmt}, r.toOption.isSome = true → ∃ stmt, r = .ok stmt := by
    rintro (e | stmt) h
    · cases h
    · exact ⟨stmt, rfl⟩
  obtain ⟨select, hselect⟩ := accepted (r := parseStatement asciiTable "SELECT x + 1 FROM t".toList) (by decide +kernel)
  obtain ⟨delete, hdelete⟩ := accepted (r := parseStatement asciiTable "delete from t;".toList) (by decide +kernel)
  obtain ⟨stmts', hscript, htrees⟩ := parseScript_joined asciiTable 0
    (show List.Forall₂ (fun text stmt => parseStatement asciiTable text.1 = .ok stmt)
      [("SELECT x + 1 FROM t".toList, 1), ("delete from t;".toList, 2)] [select, delete] from .cons hselect (.cons hdelete .nil))
  exact ⟨select, delete, stmts', hselect, hdelete, hscript, htrees⟩

end LeafDb
