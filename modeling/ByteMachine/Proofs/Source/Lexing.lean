import Mathlib
import ByteMachine.Proofs.Compiler.Literals
/-!
# Tokens are read off their source text

The lexer cuts a source text into blanks, comments and the texts of tokens, and gives each token
the line and column where its text starts. `Scans` says what such a cut is: a blank is a space,
tab, carriage return or line feed; a comment runs from `//` to the end of its line; and a
token's text spells it (`Spells`): a punctuation mark or operator, a word that is a keyword
exactly when it is one of the keywords, a quoted string whose body unescapes to the lexeme, or a
number literal. A one-character operator is never followed by the character that would make it a
two-character one.

Lines and columns are counted from 1, a column for each character (`posAfter`).

## Main statements

* `advance_posAfter`: the lexer's position after a text is its line and column.
* `Scans.readToken`, `Scans.readBlank`: what one reading of the lexer adds to a cut.
* `Scans.starts`: the tokens of a cut start at strictly growing offsets of the text.
* `tokenize_spans_source`: the tokens of a text that the lexer accepts are a cut of the whole
  text, with the end of input after its last character; a lexical error stands at the start of
  the token it fails on, after a cut of the text before it.
-/

namespace ByteMachine.Source

open Compiler (NumberLiteral digitsNumber digitsValue_eq)

/-! ## Lines and columns -/

/-- The line and column of the character after a text, both counted from 1: a line for each line
feed in the text, and a column for each character after the last one. -/
def posAfter (before : List Char) : Pos :=
  ⟨before.count '\n' + 1, (before.reverse.takeWhile (· != '\n')).length + 1⟩

theorem posAfter_nil : posAfter [] = {} := rfl

/-- A character moves the line and column as the lexer's position moves. -/
theorem posAfter_concat (before : List Char) (c : Char) :
    posAfter (before ++ [c]) = (posAfter before).next c := by
  by_cases hc : c = '\n'
  · subst hc
    simp [posAfter, Pos.next]
  · simp [posAfter, Pos.next, hc]

/-- The lexer's position after a text, from the position after what came before, is the line
and column after both. -/
theorem advance_posAfter (before text : List Char) :
    (posAfter before).advance text = posAfter (before ++ text) := by
  induction text generalizing before with
  | nil => simp [Pos.advance]
  | cons c text ih =>
      rw [Pos.advance, List.foldl_cons, ← posAfter_concat, ← Pos.advance, ih]
      simp

/-! ## What a token's text is -/

/-- The body of a string after its opening quote and before its closing one, and the characters
it stands for: a backslash stands for the character after it, and any other character, which is
then no quote, for itself. -/
inductive Unescapes : List Char → List Char → Prop
  | nil : Unescapes [] []
  | escaped (c : Char) {body value : List Char} (rest : Unescapes body value) :
      Unescapes ('\\' :: c :: body) (c :: value)
  | plain {c : Char} {body value : List Char} (quote : c ≠ '"') (backslash : c ≠ '\\')
      (rest : Unescapes body value) : Unescapes (c :: body) (c :: value)

/-- The text of a token of a kind with a lexeme: a punctuation mark or operator, which is its own
lexeme; a word, whose kind is its keyword when it is one and an identifier otherwise; a quoted
string, whose body unescapes to the lexeme; or a number literal that fits in 64 bits, whose
lexeme is its spelling when decimal and the decimal text of its value when it has a radix. -/
inductive Spells : TokenKind → String → List Char → Prop
  | single {c : Char} {kind : TokenKind} (h : singleKind? c = some kind) :
      Spells kind c.toString [c]
  | pair {c d : Char} {kind : TokenKind} (h : pairKind? c d = some kind) :
      Spells kind (String.ofList [c, d]) [c, d]
  | word {c : Char} {w : List Char} (start : isNameStart c = true)
      (chars : ∀ x ∈ w, isNameChar x = true) :
      Spells ((TokenKind.keyword? (String.ofList (c :: w))).getD .identifier)
        (String.ofList (c :: w)) (c :: w)
  | string {body value : List Char} (h : Unescapes body value) :
      Spells .string (String.ofList value) ('"' :: body ++ ['"'])
  | number (L : NumberLiteral) (fits : ¬ L.Overflows) : Spells .number L.lexeme L.spelling

/-- No token is spelled by an empty text. -/
theorem Spells.ne_nil {kind : TokenKind} {lexeme : String} {text : List Char}
    (h : Spells kind lexeme text) : text ≠ [] := by
  cases h with
  | single => simp
  | pair => simp
  | word => simp
  | string => simp
  | number L =>
      cases L with
      | decimal whole fraction hw => simp [NumberLiteral.spelling, hw.1]
      | radix => simp [NumberLiteral.spelling]

/-- `Scans before text tokens`: the text after `before` is cut into blanks, comments running to
the end of their line, and the texts of `tokens` in order, each token at the line and column
where its text starts. A token of one character is never followed by a character that would
make a two-character operator of it. -/
inductive Scans : List Char → List Char → List Token → Prop
  | nil (before : List Char) : Scans before [] []
  | blank {before rest : List Char} {c : Char} {tokens : List Token} (space : isSpace c = true)
      (next : Scans (before ++ [c]) rest tokens) : Scans before (c :: rest) tokens
  | comment {before body rest : List Char} {tokens : List Token} (line : '\n' ∉ body)
      (ends : rest.head? = none ∨ rest.head? = some '\n')
      (next : Scans (before ++ '/' :: '/' :: body) rest tokens) :
      Scans before ('/' :: '/' :: body ++ rest) tokens
  | token {before text rest : List Char} {kind : TokenKind} {lexeme : String}
      {tokens : List Token} (spells : Spells kind lexeme text)
      (whole : ∀ c d, text = [c] → rest.head? = some d → pairKind? c d = none)
      (next : Scans (before ++ text) rest tokens) :
      Scans before (text ++ rest) (⟨kind, lexeme, posAfter before⟩ :: tokens)

/-! ## Runs of characters -/

section Runs

variable (p : Char → Bool) (l : List Char)

theorem take_length_takeWhile : l.take (l.takeWhile p).length = l.takeWhile p := by
  have h := List.takeWhile_append_dropWhile (p := p) (l := l)
  calc l.take (l.takeWhile p).length
      = (l.takeWhile p ++ l.dropWhile p).take (l.takeWhile p).length := by rw [h]
    _ = l.takeWhile p := List.take_left

theorem drop_length_takeWhile : l.drop (l.takeWhile p).length = l.dropWhile p := by
  have h := List.takeWhile_append_dropWhile (p := p) (l := l)
  calc l.drop (l.takeWhile p).length
      = (l.takeWhile p ++ l.dropWhile p).drop (l.takeWhile p).length := by rw [h]
    _ = l.dropWhile p := List.drop_left

/-- The character after a run is one the run stops at. -/
theorem head?_dropWhile {x : Char} (h : (l.dropWhile p).head? = some x) : p x = false := by
  have hnot := List.head?_dropWhile_not p l
  rw [h] at hnot
  exact hnot

end Runs

/-! ## One reading of the lexer -/

/-- A string body read up to its closing quote: the body unescapes to the string's contents. -/
theorem stringBody_eq_some {rest value : List Char} {k : Nat}
    (h : stringBody rest = some (value, k)) :
    ∃ body, rest.take k = body ++ ['"'] ∧ Unescapes body value := by
  induction rest using stringBody.induct generalizing value k with
  | case1 => cases h
  | case2 more =>
      simp only [stringBody, Option.some.injEq, Prod.mk.injEq] at h
      obtain ⟨rfl, rfl⟩ := h
      exact ⟨[], rfl, .nil⟩
  | case3 c more ih =>
      simp only [stringBody, Option.map_eq_some_iff, Prod.mk.injEq] at h
      obtain ⟨⟨v, k'⟩, hv, rfl, rfl⟩ := h
      obtain ⟨body, htake, hu⟩ := ih hv
      exact ⟨'\\' :: c :: body, by simp [htake], .escaped c hu⟩
  | case4 more _ hlone =>
      -- a backslash that ends the text escapes nothing
      cases more with
      | nil => simp [stringBody] at h
      | cons c more => exact (hlone c more rfl rfl).elim
  | case5 c more hquote _ hescape ih =>
      simp only [stringBody, hescape, if_false, Option.map_eq_some_iff, Prod.mk.injEq] at h
      obtain ⟨⟨v, k'⟩, hv, rfl, rfl⟩ := h
      obtain ⟨body, htake, hu⟩ := ih hv
      exact ⟨c :: body, by simp [htake], .plain hquote hescape hu⟩

/-- A decimal literal as the lexer reads it after its first digit: the digits, and a point with
the digits after it when a digit follows the point. Its lexeme is its spelling. -/
theorem decimalAfter_spells {c : Char} {rest : List Char} {text : String} {k : Nat}
    (hc : isDigit c = true) (h : decimalAfter c rest = (text, k)) :
    ∃ L : NumberLiteral, ¬ L.Overflows ∧ L.lexeme = text ∧ L.spelling = c :: rest.take k := by
  have hwhole : c :: rest.takeWhile isDigit ≠ [] ∧
      ∀ x ∈ c :: rest.takeWhile isDigit, isDigit x = true :=
    ⟨List.cons_ne_nil _ _, by simpa [hc] using fun x hx => List.mem_takeWhile_imp hx⟩
  unfold decimalAfter at h
  simp only at h
  split at h
  · rename_i d more hdrop
    split at h
    · rename_i hd
      simp only [Prod.mk.injEq] at h
      obtain ⟨rfl, rfl⟩ := h
      have hfs : (d :: more).takeWhile isDigit ≠ [] ∧
          ∀ x ∈ (d :: more).takeWhile isDigit, isDigit x = true :=
        ⟨by simp [hd], fun x hx => List.mem_takeWhile_imp hx⟩
      refine ⟨.decimal _ (some ((d :: more).takeWhile isDigit)) hwhole
        (fun fs hmem => by rw [Option.mem_def, Option.some.injEq] at hmem; exact hmem ▸ hfs), id,
        by simp [NumberLiteral.lexeme, NumberLiteral.pointed], ?_⟩
      -- the point and the fraction follow the whole digits in the text
      have hrest : rest = rest.takeWhile isDigit ++ '.' :: d :: more := by
        rw [← hdrop, drop_length_takeWhile, List.takeWhile_append_dropWhile]
      have htake : rest.take ((rest.takeWhile isDigit).length + 1 +
          ((d :: more).takeWhile isDigit).length) =
            rest.takeWhile isDigit ++ '.' :: (d :: more).takeWhile isDigit := by
        generalize rest.takeWhile isDigit = ds at hrest ⊢
        rw [hrest, Nat.add_assoc, List.take_length_add_append, Nat.add_comm, List.take_succ_cons,
          take_length_takeWhile]
      simp [NumberLiteral.spelling, NumberLiteral.pointed, htake]
    · simp only [Prod.mk.injEq] at h
      obtain ⟨rfl, rfl⟩ := h
      exact ⟨.decimal _ none hwhole (by simp), id, by simp [NumberLiteral.lexeme, NumberLiteral.pointed],
        by simp [NumberLiteral.spelling, NumberLiteral.pointed, take_length_takeWhile]⟩
  · simp only [Prod.mk.injEq] at h
    obtain ⟨rfl, rfl⟩ := h
    exact ⟨.decimal _ none hwhole (by simp), id, by simp [NumberLiteral.lexeme, NumberLiteral.pointed],
      by simp [NumberLiteral.spelling, NumberLiteral.pointed, take_length_takeWhile]⟩

/-- The number a digit starts, as the lexer reads it: a literal that fits in 64 bits, spelled by
the digit and the characters taken after it, with the token's lexeme. -/
theorem numberAfter_spells {c : Char} {rest : List Char} {text : String} {k : Nat}
    (hc : isDigit c = true) (h : numberAfter c rest = .ok (text, k)) :
    ∃ L : NumberLiteral, ¬ L.Overflows ∧ L.lexeme = text ∧ L.spelling = c :: rest.take k := by
  unfold numberAfter at h
  split at h
  · rename_i p more
    split at h
    · rename_i radix hradix
      simp only at h
      split at h
      · cases h
      · rename_i v hv
        split at h
        · rename_i hlt
          simp only [Except.ok.injEq, Prod.mk.injEq] at h
          obtain ⟨rfl, rfl⟩ := h
          -- the digits taken after the radix letter: at least one, all of the radix
          have hall : ∀ d ∈ more.takeWhile (fun d => (Text.digitValue radix d).isSome),
              (Text.digitValue radix d).isSome = true := fun d hd =>
            List.mem_takeWhile_imp (p := fun d => (Text.digitValue radix d).isSome) hd
          have hne : more.takeWhile (fun d => (Text.digitValue radix d).isSome) ≠ [] := by
            intro h0
            rw [h0] at hv
            cases hv
          have hval := Option.some.inj ((digitsValue_eq hne hall).symm.trans hv)
          refine ⟨.radix p radix _ hradix ⟨hne, hall⟩, ?_, ?_, ?_⟩
          · show ¬ 2 ^ 64 ≤ digitsNumber radix _
            omega
          · show toString (digitsNumber radix _) = toString v
            rw [hval]
          · show '0' :: p :: _ = '0' :: (p :: more).take (1 + _)
            rw [Nat.add_comm, List.take_succ_cons, take_length_takeWhile]
        · cases h
    · exact decimalAfter_spells hc (Except.ok.inj h)
  · exact decimalAfter_spells hc (Except.ok.inj h)

/-- A token that starts with a character making no two-character operator is a punctuation mark,
a number or a word, spelled by the character and those taken after it. -/
theorem single_spells {c : Char} {rest : List Char} {tok : Option (TokenKind × String)} {k : Nat}
    (h : readToken.single c rest = .ok (tok, k)) :
    ∃ kind lexeme, tok = some (kind, lexeme) ∧ Spells kind lexeme (c :: rest.take k) := by
  unfold readToken.single at h
  split at h
  · rename_i kind hkind
    simp only [Except.ok.injEq, Prod.mk.injEq] at h
    obtain ⟨rfl, rfl⟩ := h
    exact ⟨kind, _, rfl, .single hkind⟩
  · split_ifs at h with hdigit hname
    · obtain ⟨⟨text, k'⟩, hnum, hpair⟩ := map_eq_ok.1 h
      simp only [Prod.mk.injEq] at hpair
      obtain ⟨rfl, rfl⟩ := hpair
      obtain ⟨L, hfits, rfl, hspell⟩ := numberAfter_spells hdigit hnum
      exact ⟨.number, L.lexeme, rfl, hspell ▸ .number L hfits⟩
    · simp only [Except.ok.injEq, Prod.mk.injEq] at h
      obtain ⟨rfl, rfl⟩ := h
      refine ⟨_, _, rfl, ?_⟩
      rw [take_length_takeWhile]
      exact .word hname fun x hx => List.mem_takeWhile_imp hx

/-- What the lexer reads as no token: a blank, or a comment up to the end of its line. -/
theorem readToken_eq_none {c : Char} {rest : List Char} {k : Nat}
    (h : readToken c rest = .ok (none, k)) :
    (isSpace c = true ∧ k = 0) ∨
      (c = '/' ∧ ∃ body, rest.take k = '/' :: body ∧ '\n' ∉ body ∧
        ((rest.drop k).head? = none ∨ (rest.drop k).head? = some '\n')) := by
  unfold readToken at h
  split at h
  · rename_i hspace
    simp only [Except.ok.injEq, Prod.mk.injEq] at h
    exact .inl ⟨hspace, h.2.symm⟩
  · split at h
    · rename_i more _
      simp only [Except.ok.injEq, Prod.mk.injEq] at h
      obtain ⟨-, rfl⟩ := h
      refine .inr ⟨rfl, more.takeWhile (fun x => decide (x ≠ '\n')), ?_, ?_, ?_⟩
      · rw [Nat.add_comm, List.take_succ_cons, take_length_takeWhile]
      · intro hmem
        simpa using List.mem_takeWhile_imp hmem
      · -- the comment stops at a line feed or at the end of the text
        rw [Nat.add_comm, List.drop_succ_cons, drop_length_takeWhile]
        cases hd : (more.dropWhile fun x => decide (x ≠ '\n')).head? with
        | none => exact .inl rfl
        | some x =>
            have hx := head?_dropWhile _ _ hd
            simp only [decide_eq_false_iff_not, not_not] at hx
            exact .inr (by rw [hx])
    · split at h
      · cases h
      · cases h
    · split at h
      · cases h
      · obtain ⟨kind, lexeme, hk, -⟩ := single_spells h
        cases hk
    · obtain ⟨kind, lexeme, hk, -⟩ := single_spells h
      cases hk

/-- What the lexer reads as a token: the token's text, after which a one-character token is not
followed by the character that would make a two-character operator of it. -/
theorem readToken_eq_some {c : Char} {rest : List Char} {kind : TokenKind} {lexeme : String}
    {k : Nat} (h : readToken c rest = .ok (some (kind, lexeme), k)) :
    Spells kind lexeme (c :: rest.take k) ∧
      ∀ c' d, c :: rest.take k = [c'] → (rest.drop k).head? = some d → pairKind? c' d = none := by
  unfold readToken at h
  split at h
  · cases h
  · split at h
    · cases h
    · split at h
      · rename_i v k' hbody
        simp only [Except.ok.injEq, Prod.mk.injEq, Option.some.injEq] at h
        obtain ⟨⟨rfl, rfl⟩, rfl⟩ := h
        obtain ⟨body, htake, hu⟩ := stringBody_eq_some hbody
        rw [htake]
        -- a string's text holds both its quotes
        exact ⟨.string hu, fun c' d hc _ => by simp at hc⟩
      · cases h
    · rename_i d more _ _
      split at h
      · rename_i kind' hpair
        simp only [Except.ok.injEq, Prod.mk.injEq, Option.some.injEq] at h
        obtain ⟨⟨rfl, rfl⟩, rfl⟩ := h
        exact ⟨.pair hpair, fun c' d' hc _ => by simp at hc⟩
      · rename_i hnone
        obtain ⟨kind', lexeme', hk, hs⟩ := single_spells h
        simp only [Option.some.injEq, Prod.mk.injEq] at hk
        obtain ⟨rfl, rfl⟩ := hk
        refine ⟨hs, fun c' d' hc hd => ?_⟩
        -- a token of one character: nothing taken after it, and the next character is `d`
        simp only [List.cons.injEq, List.take_eq_nil_iff, reduceCtorEq, or_false] at hc
        obtain ⟨rfl, rfl⟩ := hc
        simp only [List.drop_zero, List.head?_cons, Option.some.injEq] at hd
        exact hd ▸ hnone
    · obtain ⟨kind', lexeme', hk, hs⟩ := single_spells h
      simp only [Option.some.injEq, Prod.mk.injEq] at hk
      obtain ⟨rfl, rfl⟩ := hk
      exact ⟨hs, fun c' d hc hd => by simp at hd⟩

/-! ## Cutting a text -/

/-- `StartsAt before text tokens starts`: the tokens of `text`, read after `before`, start at the
ends of the prefixes `starts` of the whole text: each token stands at the line and column after
its prefix, where a text spelling it starts, and the prefixes reach past `before` and grow
strictly. -/
def StartsAt (before text : List Char) (tokens : List Token) (starts : List (List Char)) : Prop :=
  List.Forall₂ (fun t pre => t.pos = posAfter pre ∧
      ∃ spelled, Spells t.kind t.lexeme spelled ∧ pre ++ spelled <+: before ++ text) tokens starts ∧
    (∀ pre ∈ starts, before.length ≤ pre.length) ∧
    starts.Pairwise (fun pre pre' => pre.length < pre'.length)

/-- Where tokens start after a gap is where they start in the text with the gap in front. -/
theorem StartsAt.skip {before gap rest : List Char} {tokens : List Token}
    {starts : List (List Char)} (h : StartsAt (before ++ gap) rest tokens starts) :
    StartsAt before (gap ++ rest) tokens starts := by
  obtain ⟨hF, hlow, hP⟩ := h
  refine ⟨hF.imp fun t pre ⟨hpos, text, hs, hpre⟩ => ⟨hpos, text, hs, by simpa using hpre⟩,
    fun pre hm => ?_, hP⟩
  have := hlow pre hm
  simp only [List.length_append] at this
  omega

namespace Scans

variable {before rest more : List Char} {c : Char} {k : Nat} {tokens : List Token}

/-- A token the lexer reads starts a cut of the text from its first character, before any cut of
what follows its text that starts the way the text after it does. -/
theorem readToken {kind : TokenKind} {lexeme : String}
    (h : Source.readToken c rest = .ok (some (kind, lexeme), k))
    (hmore : ∀ d, more.head? = some d → (rest.drop k).head? = some d)
    (next : Scans (before ++ c :: rest.take k) more tokens) :
    Scans before ((c :: rest.take k) ++ more) (⟨kind, lexeme, posAfter before⟩ :: tokens) :=
  have ⟨spells, whole⟩ := readToken_eq_some h
  .token spells (fun c' d hc hd => whole c' d hc (hmore d hd)) next

/-- So does a blank or a comment, adding no token. -/
theorem readBlank (h : Source.readToken c rest = .ok (none, k))
    (hmore : ∀ d, more.head? = some d → (rest.drop k).head? = some d)
    (next : Scans (before ++ c :: rest.take k) more tokens) :
    Scans before ((c :: rest.take k) ++ more) tokens := by
  rcases readToken_eq_none h with ⟨hspace, rfl⟩ | ⟨rfl, body, htake, hline, hends⟩
  · exact .blank hspace next
  · rw [htake] at next ⊢
    -- the comment runs to the end of its line in `more` as in the text
    refine .comment hline ?_ next
    cases hd : more.head? with
    | none => exact .inl rfl
    | some d =>
        have hd' := hmore d hd
        rcases hends with hnone | hline'
        · rw [hnone] at hd'
          cases hd'
        · rw [hline'] at hd'
          exact .inr (by rw [← hd'])

/-- The tokens of a cut start at strictly growing offsets of the text: each stands at the line and
column after the text before it, where the text that spells it starts. -/
theorem starts {cs : List Char} (h : Scans before cs tokens) :
    ∃ starts, StartsAt before cs tokens starts := by
  induction h with
  | nil before => exact ⟨[], .nil, by simp, .nil⟩
  | blank _ _ ih =>
      obtain ⟨starts, hs⟩ := ih
      exact ⟨starts, hs.skip⟩
  | comment _ _ _ ih =>
      obtain ⟨starts, hs⟩ := ih
      exact ⟨starts, hs.skip⟩
  | @token before text rest kind lexeme tokens hspells _ _ ih =>
      obtain ⟨starts, hs⟩ := ih
      -- the token's text is not empty, so every later token starts further on
      have hlen : 0 < text.length := List.length_pos_of_ne_nil hspells.ne_nil
      have hlater : ∀ pre ∈ starts, before.length < pre.length := fun pre hm => by
        have := hs.2.1 pre hm
        simp only [List.length_append] at this
        omega
      refine ⟨before :: starts, .cons ⟨rfl, text, hspells, by simp⟩ hs.skip.1, fun pre hm => ?_,
        .cons hlater hs.2.2⟩
      rcases List.mem_cons.1 hm with rfl | hm
      · exact le_rfl
      · exact (hlater pre hm).le

end Scans

/-- A run of the lexer that succeeds: the text after `before` is cut into its blanks, comments
and tokens, and the end of input stands after the whole text. -/
theorem scanFrom_eq_ok {p : Pos} {done : Array Token} {cs : List Char} {before : List Char}
    {tokens : List Token} (hp : p = posAfter before) (h : scanFrom p done cs = .ok tokens) :
    ∃ body, Scans before cs body ∧
      tokens = done.toList ++ body ++ [⟨.eof, "", posAfter (before ++ cs)⟩] := by
  induction p, done, cs using scanFrom.induct generalizing before tokens with
  | case1 p done =>
      rw [scanFrom] at h
      cases h
      exact ⟨[], .nil before, by simp [hp]⟩
  | case2 p done c rest fault hfault =>
      rw [scanFrom, hfault] at h
      cases h
  | case3 p done c rest tok k hread done' =>
      rename_i ih
      rw [scanFrom, hread] at h
      have hp' : p.advance (c :: rest.take k) = posAfter (before ++ c :: rest.take k) := by
        rw [hp, advance_posAfter]
      have hcs : (c :: rest.take k) ++ rest.drop k = c :: rest := by simp
      have hend : (before ++ c :: rest.take k) ++ rest.drop k = before ++ c :: rest := by simp
      -- one reading, then the run from the text after it
      cases tok with
      | none =>
          obtain ⟨body, hs, rfl⟩ := ih hp' h
          exact ⟨body, hcs ▸ Scans.readBlank hread (fun _ hd => hd) hs, by rw [hend]⟩
      | some t =>
          obtain ⟨kind, lexeme⟩ := t
          obtain ⟨body, hs, rfl⟩ := ih hp' h
          refine ⟨_, hcs ▸ Scans.readToken hread (fun _ hd => hd) hs, ?_⟩
          simp only [done', hend, hp]
          simp

/-- A run of the lexer that fails: the fault is the first token's after a cut of the text before
it, and it stands at that token's first character. -/
theorem scanFrom_eq_error {p : Pos} {done : Array Token} {cs : List Char} {before : List Char}
    {e : LexError} (hp : p = posAfter before) (h : scanFrom p done cs = .error e) :
    ∃ pre c rest body, cs = pre ++ c :: rest ∧ Scans before pre body ∧
      e.pos = posAfter (before ++ pre) ∧ Source.readToken c rest = .error e.fault := by
  induction p, done, cs using scanFrom.induct generalizing before e with
  | case1 p done =>
      rw [scanFrom] at h
      cases h
  | case2 p done c rest fault hfault =>
      rw [scanFrom, hfault] at h
      cases h
      exact ⟨[], c, rest, [], rfl, .nil before, by simp [hp], hfault⟩
  | case3 p done c rest tok k hread done' =>
      rename_i ih
      rw [scanFrom, hread] at h
      have hp' : p.advance (c :: rest.take k) = posAfter (before ++ c :: rest.take k) := by
        rw [hp, advance_posAfter]
      -- the fault lies in the text after this reading
      have hafter : ∀ {pre c' rest'}, rest.drop k = pre ++ c' :: rest' →
          ∀ d, pre.head? = some d → (rest.drop k).head? = some d := by
        intro pre c' rest' hsplit d hd
        rw [hsplit, List.head?_append, hd]
        rfl
      cases tok with
      | none =>
          obtain ⟨pre, c', rest', body, hsplit, hs, hpos, hfault⟩ := ih hp' h
          refine ⟨(c :: rest.take k) ++ pre, c', rest', body, ?_,
            Scans.readBlank hread (hafter hsplit) hs, by rw [hpos]; simp, hfault⟩
          rw [List.append_assoc, ← hsplit]
          simp
      | some t =>
          obtain ⟨kind, lexeme⟩ := t
          obtain ⟨pre, c', rest', body, hsplit, hs, hpos, hfault⟩ := ih hp' h
          refine ⟨(c :: rest.take k) ++ pre, c', rest', _, ?_,
            Scans.readToken hread (hafter hsplit) hs, by rw [hpos]; simp, hfault⟩
          rw [List.append_assoc, ← hsplit]
          simp

/-- The tokens of a source text are read off the text. When the lexer accepts it, the tokens
before the end of input cut the whole text (`Scans`): each stands at the line and column where
its text starts and is spelled by that text, one after another, with only blanks and comments
running to the end of their line around them, and no one-character operator split off a
two-character one; the end of input stands after the last character. When the lexer fails, the
error stands at the line and column of the character where the failing token starts, after a
cut of the text before it, with the fault that reading a token there gives. `Scans.starts` reads
the offsets where the tokens of a cut start off it. -/
theorem tokenize_spans_source (s : String) :
    (∀ tokens, tokenize s = .ok tokens →
      ∃ body, Scans [] s.toList body ∧ tokens = body ++ [⟨.eof, "", posAfter s.toList⟩]) ∧
    (∀ e, tokenize s = .error e →
      ∃ before c rest body, s.toList = before ++ c :: rest ∧ Scans [] before body ∧
        e.pos = posAfter before ∧ readToken c rest = .error e.fault) := by
  refine ⟨fun tokens h => ?_, fun e h => ?_⟩
  · obtain ⟨body, hs, rfl⟩ := scanFrom_eq_ok posAfter_nil.symm h
    exact ⟨body, hs, by simp⟩
  · obtain ⟨before, c, rest, body, hsplit, hs, hpos, hfault⟩ :=
      scanFrom_eq_error posAfter_nil.symm h
    exact ⟨before, c, rest, body, hsplit, hs, by simpa using hpos, hfault⟩

end ByteMachine.Source
