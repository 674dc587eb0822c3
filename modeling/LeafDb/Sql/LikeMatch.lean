import LeafDb.Base.Wildcard
import LeafDb.Sql.Interp

/-!
# LIKE

`like_regex` ends its regular expression with `$`, which also matches before a final line feed, and folds
the case of all letters. So the LIKE test is the recursive definition read with Unicode case, on the value
or on the value without its final line feed (`likeMatch_iff`).
-/

namespace LeafDb

open Wildcard

/-! ### The definition -/

/-- A pattern character. -/
def likeItem (c : Char) : Item Char := if c = '%' then .many else if c = '_' then .one else .char c

def likeItems (pattern : String) : List (Item Char) := pattern.toList.map likeItem

/-- Equal up to the case of ASCII letters. -/
def AsciiSame (a b : Char) : Prop := a.toLower = b.toLower

/-- `value LIKE pattern`, as documented. -/
def LikeSpec (pattern value : String) : Prop := Matches AsciiSame (likeItems pattern) value.toList

/-- What the documentation of `re` says of IGNORECASE: a character matches itself and, if it is an ASCII letter, its
other case. Letters beyond ASCII are left open. -/
structure PyLib.FoldsCase (lib : PyLib) : Prop where
  ascii : ∀ a b, AsciiSame a b → lib.sameLetter a b = true

/-- IGNORECASE identifies the two characters. -/
def PyLib.Folds (lib : PyLib) (a b : Char) : Prop := lib.sameLetter a b = true

/-! ### The code -/

section Match

variable {lib : PyLib}

theorem likeItem_ne_many {c : Char} (h : c ≠ '%') : likeItem c ≠ .many := by
  rw [likeItem, if_neg h]
  split <;> simp

theorem likeItem_fits {q c : Char} (h : q ≠ '%') :
    (likeItem q).Fits lib.Folds c ↔ (decide (q = '_') || lib.sameLetter q c) = true := by
  rw [likeItem, if_neg h]
  by_cases hq : q = '_'
  · simp [hq, Item.Fits]
  · simp [hq, Item.Fits, PyLib.Folds]

/-- Induction on the pattern; the line feed is what is left at its end. -/
theorem likeChars_iff (p cs : List Char) : likeChars lib p cs = true ↔
    Matches lib.Folds (p.map likeItem) cs ∨ ∃ w, cs = w ++ ['\n'] ∧ Matches lib.Folds (p.map likeItem) w := by
  induction p generalizing cs with
  | nil =>
    rcases cs with _ | ⟨c, cs⟩
    · simp [likeChars]
    · simp [likeChars]
  | cons q p ih =>
    rw [List.map_cons]
    by_cases hq : q = '%'
    · subst hq
      have hi : likeItem '%' = .many := rfl
      simp only [likeChars, List.any_eq_true, List.mem_tails, ih, hi, matches_many]
      constructor
      · rintro ⟨s, ⟨skipped, rfl⟩, h | ⟨w, rfl, h⟩⟩
        · exact .inl ⟨skipped, s, rfl, h⟩
        · exact .inr ⟨skipped ++ w, (List.append_assoc ..).symm, skipped, w, rfl, h⟩
      · rintro (⟨skipped, s, rfl, h⟩ | ⟨_, rfl, skipped, s, rfl, h⟩)
        · exact ⟨s, List.suffix_append .., .inl h⟩
        · exact ⟨s ++ ['\n'], ⟨skipped, (List.append_assoc ..).symm⟩, .inr ⟨s, rfl, h⟩⟩
    · rw [matches_cons (likeItem_ne_many hq)]
      rcases cs with _ | ⟨c, cs⟩
      · rw [likeChars]
        · simp [matches_cons (likeItem_ne_many hq)]
        · exact hq
      · have hstep : likeChars lib (q :: p) (c :: cs) = ((decide (q = '_') || lib.sameLetter q c) && likeChars lib p cs) := by
          rw [likeChars]
          exact hq
        rw [hstep, Bool.and_eq_true, ← likeItem_fits hq, ih]
        constructor
        · rintro ⟨hf, h | ⟨w, rfl, h⟩⟩
          · exact .inl ⟨c, cs, rfl, hf, h⟩
          · exact .inr ⟨c :: w, rfl, (matches_cons (likeItem_ne_many hq)).2 ⟨c, w, rfl, hf, h⟩⟩
        · rintro (⟨a, s, he, hf, h⟩ | ⟨w, he, h⟩)
          · obtain ⟨rfl, rfl⟩ := List.cons.inj he
            exact ⟨hf, .inl h⟩
          · obtain ⟨a, s, rfl, hf, hs⟩ := (matches_cons (likeItem_ne_many hq)).1 h
            obtain ⟨rfl, rfl⟩ := List.cons.inj he
            exact ⟨hf, .inr ⟨s, rfl, hs⟩⟩

end Match

/-! ### Where the code keeps to the definition -/

section Agree

variable {lib : PyLib}

theorem asciiSame_lineFeed {c : Char} : AsciiSame '\n' c ↔ c = '\n' := by
  constructor
  · intro h
    have hlow : c.toLower = '\n' := h.symm
    by_cases hupper : c.isUpper
    · have halpha : c.isAlpha = true := by rw [Char.isAlpha, hupper, Bool.true_or]
      rw [← Char.isLower_toLower_eq_isAlpha, hlow] at halpha
      cases halpha
    · rwa [Char.toLower_eq_of_not_isUpper hupper] at hlow
  · rintro rfl
    rfl

/-- What matches by the definition matches with the case of all letters folded. -/
theorem matches_of_ascii (hlib : lib.FoldsCase) {p : List (Item Char)} {s : List Char} (h : Matches AsciiSame p s) :
    Matches lib.Folds p s :=
  h.imp fun a _ b _ hab => hlib.ascii a b hab

theorem likeMatch_iff (pattern value : String) : likeMatch lib pattern value = true ↔
    Matches lib.Folds (likeItems pattern) value.toList ∨
      ∃ w, value.toList = w ++ ['\n'] ∧ Matches lib.Folds (likeItems pattern) w :=
  likeChars_iff ..

/-! #### A line feed at the end -/

/-- The pattern takes one more line feed at the end of every text it matches: its last `%` is followed by
`_` only, and then by line feeds only. -/
def TakesLineFeed (p : List (Item Char)) : Prop :=
  ∃ front i j, p = front ++ .many :: (List.replicate i .one ++ List.replicate j (.char '\n'))

/-- A tail of `_` and line feeds fits the text shifted by one character, with a line feed at its end. -/
theorem shift_fits {i j : Nat} {s : List Char}
    (h : List.Forall₂ (Item.Fits AsciiSame) (List.replicate i .one ++ List.replicate j (.char '\n')) s) :
    ∃ a s', s ++ ['\n'] = a :: s' ∧
      List.Forall₂ (Item.Fits AsciiSame) (List.replicate i .one ++ List.replicate j (.char '\n')) s' := by
  induction i generalizing s with
  | zero =>
    rw [List.replicate_zero, List.nil_append] at h ⊢
    have hs : s = List.replicate j '\n' := by
      induction j generalizing s with
      | zero => exact List.forall₂_nil_left_iff.1 h
      | succ j ih =>
        rw [List.replicate_succ, List.forall₂_cons_left_iff] at h
        obtain ⟨c, s', hc, h, rfl⟩ := h
        rw [ih h, asciiSame_lineFeed.1 hc, List.replicate_succ]
    refine ⟨'\n', s, ?_, h⟩
    rw [hs, ← List.replicate_succ', List.replicate_succ]
  | succ i ih =>
    rw [List.replicate_succ, List.cons_append, List.forall₂_cons_left_iff] at h
    obtain ⟨c, s', -, h, rfl⟩ := h
    obtain ⟨a, s'', hs, hfits⟩ := ih h
    refine ⟨c, a :: s'', by rw [List.cons_append, hs], ?_⟩
    rw [List.replicate_succ, List.cons_append]
    exact .cons trivial hfits

theorem not_many_mem {i j : Nat} : (.many : Item Char) ∉ List.replicate i .one ++ List.replicate j (.char '\n') := by
  rw [List.mem_append, not_or]
  constructor
  · intro h
    cases List.eq_of_mem_replicate h
  · intro h
    cases List.eq_of_mem_replicate h

theorem TakesLineFeed.matches {p : List (Item Char)} (hp : TakesLineFeed p) {s : List Char}
    (h : Matches AsciiSame p s) : Matches AsciiSame p (s ++ ['\n']) := by
  obtain ⟨front, i, j, rfl⟩ := hp
  obtain ⟨s₁, s₂, rfl, h₁, h₂⟩ := matches_append.1 h
  obtain ⟨skipped, s₃, rfl, h₃⟩ := matches_many.1 h₂
  obtain ⟨a, s', hs, hfits⟩ := shift_fits ((matches_iff_forall₂ not_many_mem).1 h₃)
  have htail := ((matches_iff_forall₂ not_many_mem).2 hfits)
  rw [List.append_assoc, List.append_assoc, hs, List.append_cons skipped]
  exact h₁.append (.many _ htail)

/-- A character that does not fit the item, unless everything does. -/
def otherThan : Item Char → Char
  | .char c => if c.toLower = 'a' then 'b' else 'a'
  | _ => 'a'

theorem otherThan_fits {i : Item Char} (h : i.Fits AsciiSame (otherThan i)) : i = .one := by
  cases i with
  | many => exact h.elim
  | one => rfl
  | char c =>
    have hc : c.toLower = (if c.toLower = 'a' then 'b' else 'a').toLower := h
    split at hc
    · rename_i ha
      rw [ha] at hc
      cases hc
    · rename_i ha
      exact (ha hc).elim

/-- A text for the items behind an item: for `_` a character that does not fit the item in front of it. -/
def textOf : Item Char → List (Item Char) → List Char
  | _, [] => []
  | front, i :: p =>
    (match i with
    | .char c => c
    | _ => otherThan front) :: textOf i p

theorem textOf_fits (hlib : lib.FoldsCase) (front : Item Char) {p : List (Item Char)} (hp : .many ∉ p) :
    List.Forall₂ (Item.Fits lib.Folds) p (textOf front p) := by
  induction p generalizing front with
  | nil => exact .nil
  | cons i p ih =>
    rw [List.mem_cons, not_or] at hp
    refine .cons ?_ (ih i hp.2)
    cases i with
    | many => exact (hp.1 rfl).elim
    | one => trivial
    | char c => exact hlib.ascii c c rfl

/-- Items that fit their text shifted by one character are `_`, then line feeds. -/
theorem replicate_of_shift (front : Item Char) {p : List (Item Char)}
    (h : List.Forall₂ (Item.Fits AsciiSame) p (textOf front p ++ ['\n']).tail) :
    ∃ i j, p = List.replicate i .one ++ List.replicate j (.char '\n') := by
  induction p generalizing front with
  | nil => exact ⟨0, 0, rfl⟩
  | cons i p ih =>
    rcases p with _ | ⟨i', p⟩
    · obtain ⟨hi, -⟩ := List.forall₂_cons.1 h
      cases i with
      | many => exact hi.elim
      | one => exact ⟨1, 0, rfl⟩
      | char c =>
        obtain rfl : c = '\n' := asciiSame_lineFeed.1 (Eq.symm hi)
        exact ⟨0, 1, rfl⟩
    · obtain ⟨hi, hrest⟩ := List.forall₂_cons.1 h
      obtain ⟨n, j, hp⟩ := ih i hrest
      rw [hp]
      -- the item fits the character of the item behind it
      rcases n with _ | n
      · rcases j with _ | j
        · cases hp
        · obtain ⟨rfl, -⟩ := List.cons.inj hp
          cases i with
          | many => exact hi.elim
          | one => exact ⟨1, j + 1, rfl⟩
          | char c =>
            obtain rfl : c = '\n' := asciiSame_lineFeed.1 (Eq.symm hi)
            exact ⟨0, j + 2, rfl⟩
      · obtain ⟨rfl, -⟩ := List.cons.inj hp
        obtain rfl : i = .one := otherThan_fits hi
        exact ⟨n + 2, j, rfl⟩

/-- Cut at the last `%`. -/
theorem exists_last_many {p : List (Item Char)} (h : .many ∈ p) :
    ∃ front tail, p = front ++ .many :: tail ∧ .many ∉ tail := by
  obtain ⟨as, bs, hp, has⟩ := List.eq_append_cons_of_mem (List.mem_reverse.2 h)
  refine ⟨bs.reverse, as.reverse, ?_, fun hm => has (List.mem_reverse.1 hm)⟩
  rw [← List.reverse_reverse p, hp, List.reverse_append, List.reverse_cons, List.append_assoc, List.singleton_append]

/-- A shortest text that a pattern matches. -/
theorem exists_text (hlib : lib.FoldsCase) (p : List (Item Char)) :
    ∃ s, s.length = (needs p).length ∧ Matches lib.Folds p s := by
  have hneeds : (.many : Item Char) ∉ needs p := fun h => by simpa [needs] using List.of_mem_filter h
  have hfits := textOf_fits hlib .one hneeds
  exact ⟨_, hfits.length_eq.symm, matches_of_aligned hfits⟩

/-- If the definition takes the line feed that the code leaves out, for every text, the pattern has the form
above: for another pattern `textOf` of its tail is a text that the definition does not match any more. -/
theorem takesLineFeed_of (hlib : lib.FoldsCase) {p : List (Item Char)}
    (h : ∀ s, Matches lib.Folds p s → Matches AsciiSame p (s ++ ['\n'])) : TakesLineFeed p := by
  by_cases hm : .many ∈ p
  · obtain ⟨front, tail, rfl, htail⟩ := exists_last_many hm
    obtain ⟨s₁, -, h₁⟩ := exists_text hlib front
    have hfits := textOf_fits hlib .many htail
    obtain ⟨t₁, t₂, ht, -, h₂⟩ := matches_append.1
      (h (s₁ ++ textOf .many tail) (h₁.append (.many [] ((matches_iff_forall₂ htail).2 hfits))))
    obtain ⟨skipped, t₃, rfl, h₃⟩ := matches_many.1 h₂
    have h₃ := (matches_iff_forall₂ htail).1 h₃
    -- the tail takes the last characters, as many as it has items
    have hlast : t₃ = (textOf .many tail ++ ['\n']).tail := by
      have hlen : t₃.length = (textOf .many tail ++ ['\n']).tail.length := by
        rw [List.length_tail, List.length_append, ← h₃.length_eq, ← hfits.length_eq]
        rfl
      have hsuffix : (textOf .many tail ++ ['\n']).tail <:+ t₁ ++ (skipped ++ t₃) := by
        rw [← ht, List.append_assoc]
        exact (List.tail_suffix _).trans (List.suffix_append ..)
      exact (List.suffix_of_suffix_length_le ⟨t₁ ++ skipped, List.append_assoc ..⟩ hsuffix hlen.le).eq_of_length hlen
    obtain ⟨i, j, hform⟩ := replicate_of_shift .many (hlast ▸ h₃)
    exact ⟨front, i, j, by rw [hform]⟩
  · -- without `%` the definition matches texts of one length only
    obtain ⟨s, hs, hmatch⟩ := exists_text hlib p
    have hneeds : needs p = p := List.filter_eq_self.2 fun i hi => decide_eq_true (ne_of_mem_of_not_mem hi hm)
    have hlen := ((matches_iff_forall₂ hm).1 (h s hmatch)).length_eq
    rw [List.length_append, hs, hneeds, List.length_singleton] at hlen
    omega

/-! #### Letters beyond ASCII -/

/-- A character `q` of the pattern meets `c` in a shortest text, where the definition leaves no other way. -/
theorem ascii_of_pattern (hlib : lib.FoldsCase) {p : List (Item Char)} {q c : Char} (hq : .char q ∈ p) (hc : lib.Folds q c)
    (h : ∀ s, Matches lib.Folds p s → s.length = (needs p).length → Matches AsciiSame p s) : AsciiSame q c := by
  obtain ⟨p₁, p₂, rfl⟩ := List.append_of_mem hq
  obtain ⟨s₁, hs₁, h₁⟩ := exists_text hlib p₁
  obtain ⟨s₂, hs₂, h₂⟩ := exists_text hlib p₂
  have hneeds : needs (p₁ ++ .char q :: p₂) = needs p₁ ++ .char q :: needs p₂ := by
    rw [needs, List.filter_append, List.filter_cons_of_pos (by simp)]
    rfl
  have hlen : (s₁ ++ c :: s₂).length = (needs (p₁ ++ .char q :: p₂)).length := by
    rw [hneeds, List.length_append, List.length_append, List.length_cons, List.length_cons, hs₁, hs₂]
  have hfits := (h (s₁ ++ c :: s₂) (h₁.append (.fits hc h₂)) hlen).aligned hlen.le
  rw [hneeds] at hfits
  obtain ⟨c', hc', hf⟩ := forall₂_getElem? hfits (j := (needs p₁).length) (a := .char q) (by simp)
  rw [← hs₁, List.getElem?_append_right le_rfl, Nat.sub_self] at hc'
  cases hc'
  exact hf

end Agree

/-! ### The LIKE test and the definition -/

/-- The LIKE test is `True` on a text and a pattern exactly if they match by the definition, both where it is
interpreted and where it is compiled. -/
def LikeAgrees (lib : PyLib) (pattern value : String) : Prop :=
  (∀ (scope : Scope) (ctx : Parts) (env : AggEnv) (e pat : Expr), evalExpr lib scope ctx env e = .ok (.str value) →
    evalExpr lib scope ctx env pat = .ok (.str pattern) →
    (evalExpr lib scope ctx env (.like e pat false) = .ok (.bool true) ↔ LikeSpec pattern value)) ∧
  ∀ (inner patFn : Closure) (parts : Parts) (env : AggEnv), inner parts env = .ok (.str value) →
    patFn parts env = .ok (.str pattern) →
    (likeFn lib inner patFn false parts env = .ok (.bool true) ↔ LikeSpec pattern value)

section Test

variable {lib : PyLib}

theorem likeAgrees_iff_match (pattern value : String) :
    LikeAgrees lib pattern value ↔ (likeMatch lib pattern value = true ↔ LikeSpec pattern value) := by
  constructor
  · rintro ⟨-, h⟩
    have := h (fun _ _ => .ok (.str value)) (fun _ _ => .ok (.str pattern)) [] none rfl rfl
    simpa [likeFn, likeText, negateIf, bind, Except.bind, pure, Except.pure] using this
  · intro h
    refine ⟨fun scope ctx env e pat he hp => ?_, fun inner patFn parts env hi hp => ?_⟩
    · simpa [evalExpr, he, hp, likeText, negateIf, bind, Except.bind, pure, Except.pure] using h
    · simpa [likeFn, hi, hp, likeText, negateIf, bind, Except.bind, pure, Except.pure] using h

/-- For one pattern and one value. -/
theorem likeAgrees_iff (hlib : lib.FoldsCase) (pattern value : String) : LikeAgrees lib pattern value ↔
    LikeSpec pattern value ∨ (¬ Matches lib.Folds (likeItems pattern) value.toList ∧
      ∀ w, value.toList = w ++ ['\n'] → ¬ Matches lib.Folds (likeItems pattern) w) := by
  have hmono : LikeSpec pattern value → Matches lib.Folds (likeItems pattern) value.toList := matches_of_ascii hlib
  rw [likeAgrees_iff_match, likeMatch_iff]
  constructor
  · intro h
    by_cases hs : LikeSpec pattern value
    · exact .inl hs
    · exact .inr ⟨fun hm => hs (h.1 (.inl hm)), fun w hw hm => hs (h.1 (.inr ⟨w, hw, hm⟩))⟩
  · rintro (hs | ⟨hm, hw⟩)
    · exact ⟨fun _ => hs, fun hs => .inl (hmono hs)⟩
    · constructor
      · rintro (h | ⟨w, hv, h⟩)
        · exact (hm h).elim
        · exact (hw w hv h).elim
      · exact fun hs => (hm (hmono hs)).elim

theorem char_mem_likeItems {pattern : String} {q : Char} :
    .char q ∈ likeItems pattern ↔ q ∈ pattern.toList ∧ q ≠ '%' ∧ q ≠ '_' := by
  rw [likeItems, List.mem_map]
  constructor
  · rintro ⟨c, hc, he⟩
    rw [likeItem] at he
    split_ifs at he with h₁ h₂
    cases he
    exact ⟨hc, h₁, h₂⟩
  · rintro ⟨hq, h₁, h₂⟩
    exact ⟨q, hq, by rw [likeItem, if_neg h₁, if_neg h₂]⟩

/-- For one pattern and all values. -/
theorem likeAgrees_pattern_iff (hlib : lib.FoldsCase) (pattern : String) : (∀ value, LikeAgrees lib pattern value) ↔
    (∀ q, .char q ∈ likeItems pattern → ∀ c, lib.Folds q c → AsciiSame q c) ∧ TakesLineFeed (likeItems pattern) := by
  simp only [likeAgrees_iff_match, likeMatch_iff]
  constructor
  · intro h
    have hspec (s : List Char) : (Matches lib.Folds (likeItems pattern) s ∨
        ∃ w, s = w ++ ['\n'] ∧ Matches lib.Folds (likeItems pattern) w) → Matches AsciiSame (likeItems pattern) s := by
      have := (h (String.ofList s)).1
      rwa [LikeSpec, String.toList_ofList] at this
    refine ⟨fun q hq c hc => ascii_of_pattern hlib hq hc fun s hs _ => hspec s (.inl hs), ?_⟩
    exact takesLineFeed_of hlib fun s hs => hspec _ (.inr ⟨s, rfl, hs⟩)
  · rintro ⟨hfold, hfeed⟩ value
    have hascii {s : List Char} (h : Matches lib.Folds (likeItems pattern) s) : Matches AsciiSame (likeItems pattern) s :=
      h.imp fun q hq c _ hqc => hfold q hq c hqc
    constructor
    · rintro (h | ⟨w, hv, h⟩)
      · exact hascii h
      · rw [LikeSpec, hv]
        exact hfeed.matches (hascii h)
    · exact fun h => .inl (matches_of_ascii hlib h)

/-- For one value and all patterns. -/
theorem likeAgrees_value_iff (hlib : lib.FoldsCase) (value : String) : (∀ pattern, LikeAgrees lib pattern value) ↔
    (∀ w, value.toList ≠ w ++ ['\n']) ∧
      ∀ c ∈ value.toList, ∀ q, q ≠ '%' → q ≠ '_' → lib.Folds q c → AsciiSame q c := by
  simp only [likeAgrees_iff_match, likeMatch_iff]
  constructor
  · intro h
    have hones (n : Nat) : likeItems (String.ofList (List.replicate n '_')) = List.replicate n .one := by
      rw [likeItems, String.toList_ofList, List.map_replicate]
      rfl
    refine ⟨fun w hw => ?_, fun c hc q h₁ h₂ hqc => ?_⟩
    · -- as many `_` as there are characters before the line feed
      have hmatch := (h (String.ofList (List.replicate w.length '_'))).1
        (.inr ⟨w, hw, by rw [hones, matches_replicate_one]⟩)
      rw [LikeSpec, hones, matches_replicate_one, hw] at hmatch
      simp at hmatch
    · obtain ⟨v₁, v₂, hv⟩ := List.append_of_mem hc
      let pattern := String.ofList (List.replicate v₁.length '_' ++ q :: List.replicate v₂.length '_')
      have hitems : likeItems pattern = List.replicate v₁.length .one ++ .char q :: List.replicate v₂.length .one := by
        have hitem : likeItem q = .char q := by rw [likeItem, if_neg h₁, if_neg h₂]
        rw [likeItems, String.toList_ofList, List.map_append, List.map_cons, List.map_replicate, List.map_replicate, hitem]
        rfl
      have hmany : .many ∉ likeItems pattern := by simp [hitems]
      have hmatch := (h pattern).1 (.inl (by
        rw [hitems, hv]
        exact (matches_replicate_one.2 rfl).append (.fits hqc (matches_replicate_one.2 rfl))))
      rw [LikeSpec, matches_iff_forall₂ hmany, hitems, hv] at hmatch
      obtain ⟨c', hc', hf⟩ := forall₂_getElem? hmatch (j := v₁.length) (a := .char q) (by simp)
      rw [List.getElem?_append_right le_rfl, Nat.sub_self] at hc'
      cases hc'
      exact hf
  · rintro ⟨hend, hfold⟩ pattern
    constructor
    · rintro (h | ⟨w, hv, -⟩)
      · refine h.imp fun q hq c hc hqc => ?_
        obtain ⟨-, h₁, h₂⟩ := char_mem_likeItems.1 hq
        exact hfold c hc q h₁ h₂ hqc
      · exact (hend w hv).elim
    · exact fun h => .inl (matches_of_ascii hlib h)

end Test

/-- Where LIKE keeps to its definition: for a pattern and a value; for a pattern, on all values; for a value, on
all patterns. -/
theorem like_agrees_iff {lib : PyLib} (hlib : lib.FoldsCase) :
    (∀ pattern value, LikeAgrees lib pattern value ↔ LikeSpec pattern value ∨
      (¬ Matches lib.Folds (likeItems pattern) value.toList ∧
        ∀ w, value.toList = w ++ ['\n'] → ¬ Matches lib.Folds (likeItems pattern) w)) ∧
    (∀ pattern, (∀ value, LikeAgrees lib pattern value) ↔
      (∀ q, .char q ∈ likeItems pattern → ∀ c, lib.Folds q c → AsciiSame q c) ∧ TakesLineFeed (likeItems pattern)) ∧
    ∀ value, (∀ pattern, LikeAgrees lib pattern value) ↔ (∀ w, value.toList ≠ w ++ ['\n']) ∧
      ∀ c ∈ value.toList, ∀ q, q ≠ '%' → q ≠ '_' → lib.Folds q c → AsciiSame q c :=
  ⟨likeAgrees_iff hlib, likeAgrees_pattern_iff hlib, likeAgrees_value_iff hlib⟩

/-- With the case folding of ASCII and of one accented letter. -/
def foldsAccent : PyLib :=
  ⟨fun _ => "", fun a b => decide (a.toLower = b.toLower) || decide ((a = 'é' ∧ b = 'É') ∨ (a = 'É' ∧ b = 'é'))⟩

theorem foldsAccent_foldsCase : foldsAccent.FoldsCase :=
  ⟨fun a b h => by simp [foldsAccent, show a.toLower = b.toLower from h]⟩

/-- `'ab' LIKE 'A%'` keeps to the definition, `'ab\n' LIKE 'ab'` does not. -/
theorem like_agrees_iff_ab : LikeAgrees foldsAccent "A%" "ab" :=
  ((like_agrees_iff foldsAccent_foldsCase).1 "A%" "ab").2 (.inl (.fits rfl (.many ['b'] .nil)))

theorem not_likeAgrees : ¬ LikeAgrees foldsAccent "ab" "ab\n" ∧ ¬ LikeAgrees foldsAccent "é" "É" := by
  rw [likeAgrees_iff_match, likeAgrees_iff_match]
  constructor
  · intro h
    have hlen := ((matches_iff_forall₂ (by decide)).1 (h.1 (by decide))).length_eq
    cases hlen
  · intro h
    obtain ⟨hf, -⟩ := List.forall₂_cons.1 ((matches_iff_forall₂ (by decide)).1 (h.1 (by decide)))
    have hlow : 'é'.toLower = 'É'.toLower := hf
    exact absurd hlow (by decide)

end LeafDb
