import LeafDb.Sql.Lexer

/-!
# Quoted strings

A string is written as a quote, the string with every quote doubled, and a quote. Wherever such strings stand between two
texts that are tokens of their own, each is one string token and nothing else changes.
-/

namespace LeafDb

namespace Lexer

/-- `s.replace("'", "''")`. -/
def doubled (s : List Char) : List Char := s.flatMap fun c => if c = '\'' then ['\'', '\''] else [c]

/-- `"'" + s.replace("'", "''") + "'"`. -/
def quote (s : List Char) : List Char := '\'' :: doubled s ++ ['\'']

/-- `",".join(quote(s) for s in ss)`. -/
def quoteAll (ss : List (List Char)) : List Char := [','].intercalate (ss.map quote)

/-- The tokens of the joined strings. -/
def quotedTokens (ss : List (List Char)) : List Token := (ss.map fun s => Token.str (String.ofList s)).intersperse (.op .comma)

/-- The quotes of a string are read back, unless another quote follows. -/
theorem scanString_doubled (s : List Char) {rest : List Char} (h : ∀ r, rest ≠ '\'' :: r) :
    scanString (doubled s ++ '\'' :: rest) = some (s, rest) := by
  induction s with
  | nil => exact scanString.eq_2 rest h
  | cons c s ih =>
    rw [doubled, List.flatMap_cons]
    by_cases hc : c = '\''
    · subst hc
      simp only [if_true, List.cons_append, List.nil_append]
      rw [scanString, show s.flatMap _ = doubled s from rfl, ih]
    · simp only [if_neg hc, List.cons_append, List.nil_append]
      rw [scanString.eq_3 c _ (fun _ heq _ => hc heq) hc, show s.flatMap _ = doubled s from rfl, ih]
      rfl

section

variable {tab : CharTable}

theorem breaks_quote : Breaks tab '\'' where
  space := isSpace_quote
  digit := tab.digit_ascii '\'' (by decide)
  ident := rfl
  pair c := by
    unfold pairOp
    split
    all_goals first | rfl | simp_all
  dot := by decide

theorem nextToken_quote (pos : Nat) (s : List Char) {rest : List Char} (h : ∀ r, rest ≠ '\'' :: r) :
    nextToken tab pos '\'' (doubled s ++ '\'' :: rest) =
      .ok (some (.str (String.ofList s)), rest) := by
  simp only [nextToken, isSpace_quote, Bool.false_eq_true, if_false, if_true, scanString_doubled s h]

theorem nextToken_comma (pos : Nat) (cs : List Char) : nextToken tab pos ',' cs = .ok (some (.op .comma), cs) := by
  have hspace : tab.isSpace ',' = false := by
    rw [Bool.eq_false_iff, Ne, tab.isSpace_ascii ',' (by decide)]
    decide
  have hdigit : tab.digit ',' = none := tab.digit_ascii ',' (by decide)
  have hpair : cs.head?.bind (pairOp ',') = none := by
    cases cs.head? with
    | none => rfl
    | some c => rfl
  simp [nextToken, hspace, hdigit, operator, hpair, singleOp, isIdentStart]

variable (tab) in
/-- The text has these tokens, wherever it begins. -/
def HasTokens (cs : List Char) (ts : List Token) : Prop :=
  ∀ pos, ∃ us, lexFrom tab cs.length pos cs = .ok us ∧ us.map Located.token = ts

theorem HasTokens.of_tokenize {cs : List Char} {us : List Located} (h : tokenize tab cs = .ok us) :
    HasTokens tab cs (us.map Located.token) := by
  intro pos
  have hnil : Boundary tab [] := fun c hc => by cases hc
  have hlex := lexFrom_seam (o := pos) hnil (fun _ hc => by cases hc) (Nat.le_refl _) h (Nat.le_refl _) (Nat.zero_le 0) rfl
  rw [List.append_nil, List.append_nil, Nat.zero_add] at hlex
  exact ⟨_, hlex, by rw [List.map_map]; rfl⟩

theorem HasTokens.tokenize {cs : List Char} {ts : List Token} (h : HasTokens tab cs ts) :
    ∃ us, tokenize tab cs = .ok us ∧ us.map Located.token = ts := h 0

theorem HasTokens.cons {c : Char} {cs rest : List Char} {t : Token} {ts : List Token}
    (hnext : ∀ pos, nextToken tab pos c cs = .ok (some t, rest)) (h : HasTokens tab rest ts) :
    HasTokens tab (c :: cs) (t :: ts) := by
  intro pos
  obtain ⟨us, hus, rfl⟩ := h (pos + ((c :: cs).length - rest.length))
  have hle := (nextToken_suffix (hnext pos)).length_le
  refine ⟨⟨t, pos, pos + ((c :: cs).length - rest.length)⟩ :: us, ?_, rfl⟩
  rw [List.length_cons, lexFrom, hnext]
  show (lexFrom tab cs.length _ rest >>= _) = _
  rw [lexFrom_rounds hle (Nat.le_refl _), hus]
  rfl

theorem HasTokens.append {cs post : List Char} {ts us : List Token} (hcs : HasTokens tab cs ts)
    (hpost : HasTokens tab post us) (hseam : Boundary tab post)
    (hend : cs.getLast? = some '\'' → post.head? ≠ some '\'') : HasTokens tab (cs ++ post) (ts ++ us) := by
  intro pos
  obtain ⟨as, has, rfl⟩ := hcs 0
  obtain ⟨bs, hbs, rfl⟩ := hpost (0 + cs.length + pos)
  have hlex := lexFrom_seam (o := pos) hseam hend (Nat.le_refl _) has (Nat.le_refl _) (Nat.le_refl _) hbs
  rw [Nat.zero_add] at hlex
  exact ⟨_, hlex, by rw [List.map_append, List.map_map]; rfl⟩

/-! ### Strings in a row -/

theorem HasTokens.quote {rest : List Char} {us : List Token} (s : List Char) (h : HasTokens tab rest us)
    (hrest : rest.head? ≠ some '\'') : HasTokens tab (quote s ++ rest) (.str (String.ofList s) :: us) := by
  have hne : ∀ r, rest ≠ '\'' :: r := by
    rintro r rfl
    exact hrest rfl
  have htext : Lexer.quote s ++ rest =
      '\'' :: (doubled s ++ '\'' :: rest) := by
    simp only [Lexer.quote, List.cons_append, List.append_assoc, List.nil_append]
  rw [htext]
  exact .cons (fun pos => nextToken_quote pos s hne) h

theorem head?_quoteAll {ss : List (List Char)} (h : ss ≠ []) (post : List Char) :
    (quoteAll ss ++ post).head? = some '\'' := by
  rcases ss with _ | ⟨s, _ | ⟨s', ss⟩⟩
  · exact absurd rfl h
  · rfl
  · rfl

theorem HasTokens.quoteAll {ss : List (List Char)} {rest : List Char} {us : List Token} (hne : ss ≠ [])
    (h : HasTokens tab rest us) (hrest : rest.head? ≠ some '\'') :
    HasTokens tab (quoteAll ss ++ rest) (quotedTokens ss ++ us) := by
  induction ss with
  | nil => exact absurd rfl hne
  | cons s ss ih =>
    rcases ss with _ | ⟨s', ss⟩
    · have htext : Lexer.quoteAll [s] = Lexer.quote s := by simp [Lexer.quoteAll]
      rw [htext]
      exact h.quote s hrest
    · have htext : Lexer.quoteAll (s :: s' :: ss) ++ rest = Lexer.quote s ++ ',' :: (Lexer.quoteAll (s' :: ss) ++ rest) := by
        simp [Lexer.quoteAll, List.intercalate]
      rw [htext]
      have hcomma := HasTokens.cons (fun pos => nextToken_comma pos _) (ih (List.cons_ne_nil _ _))
      exact hcomma.quote s (by simp)

end

/-- Strings between two texts are tokens of their own, whatever is in them. -/
theorem tokenize_quoted (tab : CharTable) {pre suf : List Char} {ss : List (List Char)} {ts us : List Located}
    (hne : ss ≠ []) (hpre : tokenize tab pre = .ok ts) (hlast : pre.getLast? ≠ some '\'')
    (hsuf : tokenize tab suf = .ok us) (hhead : suf.head? ≠ some '\'') :
    ∃ ws, tokenize tab (pre ++ quoteAll ss ++ suf) = .ok ws ∧
      ws.map Located.token = ts.map Located.token ++ quotedTokens ss ++ us.map Located.token := by
  have hquoted := (HasTokens.of_tokenize hsuf).quoteAll hne hhead
  have hseam : Boundary tab (quoteAll ss ++ suf) := by
    intro c hc
    rw [head?_quoteAll hne] at hc
    cases hc
    exact breaks_quote
  have hall := (HasTokens.of_tokenize hpre).append hquoted hseam fun h => absurd h hlast
  rw [← List.append_assoc, ← List.append_assoc] at hall
  exact hall.tokenize

/-- `(''''','x')`: a string of two quotes and another one. -/
theorem tokenize_quoted_pair : ∃ ws, tokenize asciiTable (['('] ++ quoteAll [['\'', '\''], ['x']] ++ [')']) = .ok ws ∧
    ws.map Located.token = [.op .lparen] ++ quotedTokens [['\'', '\''], ['x']] ++ [.op .rparen] := by
  have hpre : tokenize asciiTable ['('] = .ok [⟨.op .lparen, 0, 1⟩] := by rfl
  have hsuf : tokenize asciiTable [')'] = .ok [⟨.op .rparen, 0, 1⟩] := by rfl
  exact tokenize_quoted asciiTable (by decide) hpre (by decide) hsuf (by decide)

/-- Without a string between them, the texts `a` and `b` become one word. -/
theorem not_tokenize_joined : ¬ ∀ (tab : CharTable) (pre suf : List Char) (ss : List (List Char)) (ts us : List Located),
    tokenize tab pre = .ok ts → pre.getLast? ≠ some '\'' → tokenize tab suf = .ok us → suf.head? ≠ some '\'' →
    ∃ ws, tokenize tab (pre ++ quoteAll ss ++ suf) = .ok ws ∧
      ws.map Located.token = ts.map Located.token ++ quotedTokens ss ++ us.map Located.token := by
  intro h
  have ha : (tokenize asciiTable ['a']).map List.length = .ok 1 := by decide +kernel
  have hb : (tokenize asciiTable ['b']).map List.length = .ok 1 := by decide +kernel
  have hab : (tokenize asciiTable ['a', 'b']).map List.length = .ok 1 := by decide +kernel
  obtain ⟨ts, hts, htslen⟩ := map_eq_ok.1 ha
  obtain ⟨us, hus, huslen⟩ := map_eq_ok.1 hb
  obtain ⟨ws, hws, heq⟩ := h asciiTable ['a'] ['b'] [] ts us hts (by simp) hus (by simp)
  obtain ⟨ws', hws', hwslen⟩ := map_eq_ok.1 hab
  cases hws'.symm.trans hws
  have hlen := congrArg List.length heq
  simp only [List.length_append, List.length_map, quotedTokens, List.map_nil, List.intersperse_nil, List.length_nil] at hlen
  omega

end Lexer

end LeafDb
