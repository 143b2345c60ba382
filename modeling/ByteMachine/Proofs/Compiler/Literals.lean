import ByteMachine.Proofs.Compiler.Assemblable
import ByteMachine.Proofs.Source.RoundTrip
import ByteMachine.Proofs.Text.Words
import Mathlib.Data.List.TakeWhile
import Mathlib.Data.Nat.Digits.Lemmas
import Mathlib.Algebra.Order.Field.Basic
import Mathlib.Algebra.Order.Field.Rat

/-!
# Number literals from source text to code

A number literal is decimal digits with an optional fraction after a point, or `0x`, `0o` or
`0b` in either case followed by digits of that radix. The lexer keeps a decimal literal's
spelling as its token's text and turns a radix literal into the decimal text of its value,
failing when that value needs more than 64 bits. Code generation reads the text again: the part
before the point must be a byte and the fraction all zeros.

So a literal output by `out` reaches the code exactly when its value is a whole number that fits
in a byte; a radix literal past 64 bits stops the lexer, and every other literal is out of range
for code generation, which names the token's text.

## Main statements

* `byteLiteral_lexeme`: code generation reads a literal's token as a byte exactly when the
  literal's value is a byte.
* `out_literal_outcome`: the three outcomes of compiling `out` with a literal.
-/

namespace ByteMachine.Compiler

open Source

/-! ## Literals and their values -/

/-- The value of digits in a radix, the most significant first. -/
def digitsNumber (radix : Nat) (ds : List Char) : Nat :=
  Nat.ofDigits radix ((ds.map fun d => (Text.digitValue radix d).getD 0).reverse)

/-- A number literal that the lexer reads as one token. -/
inductive NumberLiteral where
  /-- Decimal digits, and the digits of a fraction after a point when there is one. -/
  | decimal (whole : List Char) (fraction : Option (List Char))
      (whole_digits : whole ≠ [] ∧ ∀ c ∈ whole, isDigit c = true)
      (fraction_digits : ∀ fs ∈ fraction, fs ≠ [] ∧ ∀ c ∈ fs, isDigit c = true)
  /-- `0`, a letter naming a radix in either case, and digits of that radix. -/
  | radix (letter : Char) (base : Nat) (digits : List Char)
      (letter_base : radixOf? letter.toLower = some base)
      (digits_valid : digits ≠ [] ∧ ∀ d ∈ digits, (Text.digitValue base d).isSome = true)

namespace NumberLiteral

/-- The characters after the whole part of a decimal literal: a point and the fraction. -/
def pointed (fraction : Option (List Char)) : List Char := (fraction.map ('.' :: ·)).getD []

/-- How the literal is spelt. -/
def spelling : NumberLiteral → List Char
  | decimal whole fraction _ _ => whole ++ pointed fraction
  | radix letter _ digits _ _ => '0' :: letter :: digits

/-- The exact value the literal spells. -/
def value : NumberLiteral → ℚ
  | decimal whole fraction _ _ =>
      digitsNumber 10 whole + digitsNumber 10 (fraction.getD []) / 10 ^ (fraction.getD []).length
  | radix _ base digits _ _ => digitsNumber base digits

/-- The text of the token the literal is read as: the spelling of a decimal literal, and the
decimal text of the value of a radix literal. -/
def lexeme : NumberLiteral → String
  | decimal whole fraction _ _ => String.ofList (whole ++ pointed fraction)
  | radix _ base digits _ _ => toString (digitsNumber base digits)

/-- A radix literal whose value needs more than 64 bits. -/
def Overflows : NumberLiteral → Prop
  | decimal .. => False
  | radix _ base digits _ _ => 2 ^ 64 ≤ digitsNumber base digits

end NumberLiteral

/-! ## Digits -/

section Digits

variable {radix : Nat} {ds : List Char}

theorem digitsNumber_cons (radix : Nat) (d : Char) (ds : List Char) :
    digitsNumber radix (d :: ds) =
      digitsNumber radix ds + radix ^ ds.length * (Text.digitValue radix d).getD 0 := by
  simp [digitsNumber, Nat.ofDigits_append, Nat.ofDigits_singleton]

/-- The lexer's reading of digits after `acc` is their positional value after `acc`. -/
theorem digitsValueFrom_eq (hd : ∀ d ∈ ds, (Text.digitValue radix d).isSome = true) (acc : Nat) :
    Text.digitsValueFrom radix acc ds = some (acc * radix ^ ds.length + digitsNumber radix ds) := by
  induction ds generalizing acc with
  | nil => simp [Text.digitsValueFrom, digitsNumber]
  | cons d ds ih =>
      obtain ⟨v, hv⟩ := Option.isSome_iff_exists.1 (hd d List.mem_cons_self)
      simp only [Text.digitsValueFrom, hv]
      rw [ih (fun d' h => hd d' (List.mem_cons_of_mem _ h)), digitsNumber_cons, hv]
      simp only [Option.getD_some, List.length_cons, Nat.pow_succ, Option.some.injEq]
      ring

theorem digitsValue_eq (hne : ds ≠ []) (hd : ∀ d ∈ ds, (Text.digitValue radix d).isSome = true) :
    Text.digitsValue radix ds = some (digitsNumber radix ds) := by
  rw [Text.digitsValue, if_neg (by simpa [List.isEmpty_iff] using hne), digitsValueFrom_eq hd]
  simp

/-- A decimal digit is a digit of radix 10. -/
theorem digitValue_ten_isSome {c : Char} (h : isDigit c = true) :
    (Text.digitValue 10 c).isSome = true := by
  rw [Text.digitValue_ten_of_isDigit h]
  rfl

/-- A decimal digit is worth nothing exactly when it is `0`. -/
theorem digitValue_ten_eq_zero {c : Char} (h : isDigit c = true) :
    (Text.digitValue 10 c).getD 0 = 0 ↔ c = '0' := by
  have hr := Char.isDigit_iff_toNat.1 h
  rw [Text.digitValue_ten_of_isDigit h, Option.getD_some]
  simp only [Char.reduceToNat] at hr ⊢
  constructor
  · intro h0
    exact Char.toNat_inj.1 (by simp only [Char.reduceToNat]; omega)
  · rintro rfl
    rfl

/-- Every character is worth less than the radix, counting a non-digit as nothing. -/
theorem digitValue_getD_lt (hr : 0 < radix) (d : Char) : (Text.digitValue radix d).getD 0 < radix := by
  have hite : ∀ v : Nat, (if v < radix then some v else none).getD 0 < radix := by
    intro v
    split <;> simp_all
  exact hite _

/-- Digits are worth less than the radix to the number of digits. -/
theorem digitsNumber_lt (hr : 1 < radix) : digitsNumber radix ds < radix ^ ds.length := by
  have hlt : digitsNumber radix ds <
      radix ^ ((ds.map fun d => (Text.digitValue radix d).getD 0).reverse).length := by
    refine Nat.ofDigits_lt_base_pow_length hr fun x hx => ?_
    obtain ⟨d, -, rfl⟩ := List.mem_map.1 (List.mem_reverse.1 hx)
    exact digitValue_getD_lt (by omega) d
  simpa using hlt

/-- Decimal digits are worth nothing exactly when all are `0`. -/
theorem digitsNumber_ten_eq_zero (hd : ∀ c ∈ ds, isDigit c = true) :
    digitsNumber 10 ds = 0 ↔ ∀ c ∈ ds, c = '0' := by
  induction ds with
  | nil => simp [digitsNumber]
  | cons d ds ih =>
      rw [digitsNumber_cons, List.forall_mem_cons, ← ih (fun c h => hd c (List.mem_cons_of_mem _ h)),
        ← digitValue_ten_eq_zero (hd d List.mem_cons_self)]
      have hpos : 0 < 10 ^ ds.length := Nat.pow_pos (by decide)
      constructor
      · intro h
        have hm : 10 ^ ds.length * (Text.digitValue 10 d).getD 0 = 0 := by omega
        refine ⟨?_, by omega⟩
        rcases Nat.mul_eq_zero.1 hm with h | h
        · omega
        · exact h
      · rintro ⟨h₁, h₂⟩
        rw [h₁, h₂]
        simp

end Digits

/-! ## The value of a literal -/

section Value

variable {whole : List Char} {fraction : Option (List Char)}

/-- A decimal literal's value is a whole number exactly when its fraction is all zeros, and
then it is the value of its whole part. -/
theorem decimal_value_eq_nat
    {hw : whole ≠ [] ∧ ∀ c ∈ whole, isDigit c = true}
    {hf : ∀ fs ∈ fraction, fs ≠ [] ∧ ∀ c ∈ fs, isDigit c = true} (n : Nat) :
    (NumberLiteral.decimal whole fraction hw hf).value = n ↔
      digitsNumber 10 whole = n ∧ ∀ c ∈ fraction.getD [], c = '0' := by
  have hfd : ∀ c ∈ fraction.getD [], isDigit c = true := by
    cases fraction with
    | none => simp
    | some fs => exact (hf fs rfl).2
  have hlt : digitsNumber 10 (fraction.getD []) < 10 ^ (fraction.getD []).length :=
    digitsNumber_lt (by decide)
  rw [NumberLiteral.value, ← digitsNumber_ten_eq_zero hfd]
  generalize digitsNumber 10 whole = w
  generalize digitsNumber 10 (fraction.getD []) = f at hlt ⊢
  generalize (fraction.getD []).length = k at hlt ⊢
  have hpow : (0 : ℚ) < 10 ^ k := by positivity
  -- the fraction's digits are worth less than one
  have hq0 : (0 : ℚ) ≤ f / 10 ^ k := by positivity
  have hq1 : (f : ℚ) / 10 ^ k < 1 := by
    rw [div_lt_one hpow]
    exact_mod_cast hlt
  constructor
  · intro h
    have hle : (w : ℚ) ≤ n := by linarith
    have hlt : (n : ℚ) < w + 1 := by linarith
    have hwn : w = n := by
      have := Nat.cast_le.1 hle
      have : n < w + 1 := by exact_mod_cast hlt
      omega
    refine ⟨hwn, ?_⟩
    have hzero : (f : ℚ) / 10 ^ k = 0 := by rw [hwn] at h; linarith
    rcases div_eq_zero_iff.1 hzero with h0 | h0
    · exact_mod_cast h0
    · exact absurd h0 hpow.ne'
  · rintro ⟨rfl, rfl⟩
    simp

end Value

/-! ## Characters of a literal -/

section Chars

variable {c : Char}

theorem isSpace_of_isDigit (h : isDigit c = true) : isSpace c = false := by
  have hr := Char.isDigit_iff_toNat.1 h
  simp only [isSpace, Bool.or_eq_false_iff, beq_eq_false_iff_ne, ne_eq]
  refine ⟨⟨⟨?_, ?_⟩, ?_⟩, ?_⟩ <;> rintro rfl <;> simp at hr

theorem singleKind_of_isDigit (h : isDigit c = true) : singleKind? c = none := by
  unfold singleKind?
  split <;> simp_all [isDigit]

theorem pairKind_of_isDigit (h : isDigit c = true) (d : Char) : pairKind? c d = none := by
  unfold pairKind?
  split <;> simp_all [isDigit]

/-- No digit names a radix, in either case. -/
theorem radixOf_toLower_of_isDigit (h : isDigit c = true) : radixOf? c.toLower = none := by
  have hr := Char.isDigit_iff_toNat.1 h
  have hlow : c.toLower = c := by
    simp only [Char.reduceToNat] at hr
    unfold Char.toLower
    rw [dif_neg]
    rintro ⟨h₁, -⟩
    have h65 : 65 ≤ c.toNat := UInt32.le_iff_toNat_le.1 h₁
    omega
  rw [hlow]
  unfold radixOf?
  split <;> simp_all

/-- A token that starts with a digit is a number. -/
theorem readToken_of_isDigit (h : isDigit c = true) (rest : List Char) :
    readToken c rest = (fun (text, k) => (some (.number, text), k)) <$> numberAfter c rest := by
  have hsingle : readToken.single c rest =
      (fun (text, k) => (some (.number, text), k)) <$> numberAfter c rest := by
    rw [readToken.single, singleKind_of_isDigit h]
    simp only [h, ↓reduceIte]
  unfold readToken
  rw [if_neg (by simp [isSpace_of_isDigit h])]
  split
  · simp_all [isDigit]
  · simp_all [isDigit]
  · rw [pairKind_of_isDigit h, hsingle]
  · exact hsingle

end Chars

/-! ## Reading a literal -/

section Lexer

open NumberLiteral

/-- A decimal literal is read up to its end: its digits, and the point with the fraction. -/
theorem decimalAfter_literal {c : Char} {ds : List Char} {fraction : Option (List Char)}
    (hds : ∀ d ∈ ds, isDigit d = true)
    (hf : ∀ fs ∈ fraction, fs ≠ [] ∧ ∀ d ∈ fs, isDigit d = true) :
    decimalAfter c (ds ++ pointed fraction) =
      (String.ofList (c :: ds ++ pointed fraction), (ds ++ pointed fraction).length) := by
  have htake : ∀ more, ('.' :: more).takeWhile isDigit = [] := fun _ => by
    simp [isDigit]
  cases fraction with
  | none =>
      simp only [pointed, Option.map_none, Option.getD_none, List.append_nil]
      rw [decimalAfter, List.takeWhile_eq_self_iff.2 hds, List.drop_length]
  | some fs =>
      obtain ⟨hne, hfs⟩ := hf fs rfl
      obtain ⟨d, more, rfl⟩ := List.exists_cons_of_ne_nil hne
      simp only [pointed, Option.map_some, Option.getD_some]
      rw [decimalAfter, List.takeWhile_append_of_pos hds, htake, List.append_nil,
        List.drop_left]
      simp only [hfs d List.mem_cons_self, ↓reduceIte,
        List.takeWhile_eq_self_iff.2 hfs]
      simp
      omega

/-- A literal starting with a digit and going on with digits or a point is decimal. -/
theorem numberAfter_of_head {c : Char} {rest : List Char}
    (h : ∀ p ∈ rest.head?, radixOf? p.toLower = none) :
    numberAfter c rest = .ok (decimalAfter c rest) := by
  unfold numberAfter
  split
  · rename_i p more
    rw [h p rfl]
  · rfl

/-- A radix literal is read whole, unless its value needs more than 64 bits. -/
theorem numberAfter_radix {letter : Char} {base : Nat} {digits : List Char}
    (hl : radixOf? letter.toLower = some base)
    (hd : digits ≠ [] ∧ ∀ d ∈ digits, (Text.digitValue base d).isSome = true) :
    numberAfter '0' (letter :: digits) =
      if digitsNumber base digits < 2 ^ 64 then
        .ok (toString (digitsNumber base digits), 1 + digits.length)
      else .error (.numberOverflow (String.ofList ('0' :: letter.toLower :: digits))) := by
  simp only [numberAfter, hl, List.takeWhile_eq_self_iff.2 hd.2, digitsValue_eq hd.1 hd.2]
  rfl

/-- How the lexer reads the first token of a literal: the whole literal, with the literal's
lexeme as its text, unless it overflows. -/
theorem readToken_literal (L : NumberLiteral) :
    ∃ c rest, L.spelling = c :: rest ∧
      (¬ L.Overflows → readToken c rest = .ok (some (.number, L.lexeme), rest.length)) ∧
      (L.Overflows → ∃ text, readToken c rest = .error (.numberOverflow text)) := by
  cases L with
  | decimal whole fraction hw hf =>
      obtain ⟨c, ds, rfl⟩ := List.exists_cons_of_ne_nil hw.1
      have hc := hw.2 c List.mem_cons_self
      have hds : ∀ d ∈ ds, isDigit d = true := fun d h => hw.2 d (List.mem_cons_of_mem _ h)
      -- what follows the first digit is a digit or the point
      have hhead : ∀ p ∈ (ds ++ pointed fraction).head?, radixOf? p.toLower = none := by
        intro p hp
        cases ds with
        | cons d ds => exact radixOf_toLower_of_isDigit (hds p (by simp_all))
        | nil =>
            cases fraction with
            | none => simp [pointed] at hp
            | some fs =>
                simp only [pointed, Option.map_some, Option.getD_some, List.nil_append,
                  List.head?_cons, Option.mem_def, Option.some.injEq] at hp
                subst hp
                rfl
      refine ⟨c, ds ++ pointed fraction, rfl, fun _ => ?_, fun h => absurd h id⟩
      rw [readToken_of_isDigit hc, numberAfter_of_head hhead, decimalAfter_literal hds hf]
      rfl
  | radix letter base digits hl hd =>
      refine ⟨'0', letter :: digits, rfl, fun h => ?_, fun h => ?_⟩
      · rw [readToken_of_isDigit rfl, numberAfter_radix hl hd,
          if_pos (Nat.lt_of_not_le h)]
        simp only [map_ok, List.length_cons]
        rw [Nat.add_comm]
        rfl
      · rw [readToken_of_isDigit rfl, numberAfter_radix hl hd, if_neg (Nat.not_lt_of_le h)]
        exact ⟨_, rfl⟩

theorem readToken_out (cs : List Char) :
    readToken 'o' ('u' :: 't' :: ' ' :: cs) = .ok (some (.kwOut, "out"), 2) := rfl

theorem readToken_space (cs : List Char) : readToken ' ' cs = .ok (none, 0) := rfl

/-- The lexer reads `out` and a space, and goes on at the text after them. -/
theorem tokenize_out (cs : List Char) :
    ∃ p, tokenize ("out " ++ String.ofList cs) = scanFrom p #[⟨.kwOut, "out", {}⟩] cs := by
  simp only [tokenize, String.toList_append, String.toList_ofList]
  show ∃ p, scanFrom {} #[] ('o' :: 'u' :: 't' :: ' ' :: cs) = _
  rw [scanFrom, readToken_out]
  simp only [List.take, List.drop]
  rw [scanFrom, readToken_space]
  exact ⟨_, rfl⟩

/-- `out` and a number token read whole. -/
theorem tokenize_out_number {c : Char} {rest : List Char} {text : String}
    (h : readToken c rest = .ok (some (.number, text), rest.length)) :
    ∃ p₁ p₂, tokenize ("out " ++ String.ofList (c :: rest)) =
      .ok [⟨.kwOut, "out", {}⟩, ⟨.number, text, p₁⟩, ⟨.eof, "", p₂⟩] := by
  obtain ⟨p, hp⟩ := tokenize_out (c :: rest)
  rw [hp, scanFrom, h]
  simp only [List.drop_length]
  rw [scanFrom]
  exact ⟨p, _, rfl⟩

/-- A fault in the first token after `out`. -/
theorem tokenize_out_fault {c : Char} {rest : List Char} {fault : LexFault}
    (h : readToken c rest = .error fault) :
    ∃ p, tokenize ("out " ++ String.ofList (c :: rest)) = .error ⟨p, fault⟩ := by
  obtain ⟨p, hp⟩ := tokenize_out (c :: rest)
  rw [hp, scanFrom, h]
  exact ⟨p, rfl⟩

end Lexer

/-! ## Parsing `out` with a number -/

section Parser

variable {t : Token}

/-- A number token alone is read by every level of the binary operators. -/
theorem tower_number (inner : Level) (ht : t.kind = .number) :
    ∀ n, Reads (tower inner n [t]) (.num t.lexeme) []
  | 0 => by
      refine ⟨by simp, ?_⟩
      show unary inner [t] = _
      rw [unary]
      simp only [ht, unaryOp?]
      simp only [call, primary, ht, ok_bind]
      rw [callsAfter]
      rfl
  | n + 1 => by
      obtain ⟨h, hT⟩ := tower_number inner ht n
      refine ⟨h, ?_⟩
      show leftAssoc (tower inner n) (levelOps (7 - n)) [t] = _
      simp only [leftAssoc, hT, ok_bind]
      rw [chain]
      rfl

/-- `out` and a number token are read as the statement that outputs the number. -/
theorem parseTokens_out_number (s : String) (p₀ p₁ p₂ : Pos) :
    parseTokens [⟨.kwOut, "out", p₀⟩, ⟨.number, s, p₁⟩, ⟨.eof, "", p₂⟩] =
      .ok [.output (.num s)] := by
  have htake : [(⟨.kwOut, "out", p₀⟩ : Token), ⟨.number, s, p₁⟩, ⟨.eof, "", p₂⟩].takeWhile
      (fun t => decide (t.kind ≠ .eof)) = [⟨.kwOut, "out", p₀⟩, ⟨.number, s, p₁⟩] := by
    simp
  simp only [parseTokens, htake]
  generalize endToken _ = eof
  -- the expression after `out` is read two levels down from the top
  obtain ⟨h₁, hT⟩ := tower_number (level eof 98) (t := ⟨.number, s, p₁⟩) rfl 7
  have hexpr : (level eof 99).expr [⟨.number, s, p₁⟩] = .ok ⟨.num s, [], h₁⟩ := by
    show assignment (level eof 98) _ = _
    rw [assignment, disjunction_eq_tower, hT, ok_bind]
    rfl
  have hdecl : declaration (level eof maxDepth) [⟨.kwOut, "out", p₀⟩, ⟨.number, s, p₁⟩] =
      .ok ⟨.output (.num s), [], by simp⟩ := by
    simp only [declaration]
    rw [show maxDepth = 99 + 1 from rfl, level_stmt, statement]
    simp only [hexpr, ok_bind]
    rfl
  rw [declarations, hdecl, ok_bind, declarations]
  rfl

end Parser

/-! ## Compiling `out` with a number -/

section Compile

theorem generate_out_number (s : String) :
    generate [.output (.num s)] = match byteLiteral s with
      | some v => .ok [loadConst v, .plain (.output .a), .plain .halt]
      | none => .error (.numberOutOfRange s) := by
  cases h : byteLiteral s <;> simp only [generate, stmtsCode, stmtCode, exprCode, h] <;> rfl

theorem loadConst_text (v : UInt8) : (loadConst v).text = "load rom a " ++ toString v.toNat := by
  simp [loadConst, Line.text, Op.template, Register.name]
  decide

/-- Compiling `out` and a number token read whole gives the program that loads and outputs its
byte, or the range error with its text. -/
theorem compile_out_number {c : Char} {rest : List Char} {text : String}
    (h : readToken c rest = .ok (some (.number, text), rest.length)) :
    (∀ v, byteLiteral text = some v → ∃ code,
        compile ("out " ++ String.ofList (c :: rest)) =
          .ok ⟨["load rom a " ++ toString v.toNat, "out a", "halt"], code⟩) ∧
      (byteLiteral text = none → compile ("out " ++ String.ofList (c :: rest)) =
        .error (.codegen (.numberOutOfRange text))) := by
  obtain ⟨p₁, p₂, htok⟩ := tokenize_out_number h
  have hsource : generateSource ("out " ++ String.ofList (c :: rest)) =
      (generate [.output (.num text)]).mapError .codegen := by
    simp only [generateSource, htok, Except.mapError, ok_bind, parseTokens_out_number]
  refine ⟨fun v hv => ?_, fun hv => ?_⟩
  · -- the three lines assemble: no jump names a label
    have hgen : generate [.output (.num text)] =
        .ok [loadConst v, .plain (.output .a), .plain .halt] := by
      rw [generate_out_number, hv]
    have hjumps : targets [loadConst v, .plain (.output .a), .plain .halt] = [] := rfl
    obtain ⟨code, hcode⟩ := (generated_code_assembles_of hgen).ok_iff.2 (by simp [hjumps])
    have htext : [loadConst v, .plain (.output .a), .plain .halt].map Line.text =
        ["load rom a " ++ toString v.toNat, "out a", "halt"] := by
      simp only [List.map_cons, List.map_nil, loadConst_text]
      rfl
    refine ⟨code, ?_⟩
    rw [compile, hsource, hgen]
    simp only [Except.mapError, ok_bind, hcode]
    rw [htext]
    rfl
  · rw [compile, hsource, generate_out_number, hv]
    rfl

end Compile

/-! ## The three outcomes -/

/-- Code generation reads a decimal integer with no sign as its value. -/
theorem readInteger_of_isDigit {c : Char} (h : isDigit c = true) (negatives : Bool)
    (rest : List Char) :
    Text.readInteger? negatives (c :: rest) = (Text.digitsValue 10 (c :: rest)).map Int.ofNat := by
  unfold Text.readInteger?
  split <;> simp_all [isDigit]

/-- Code generation reads the text of a decimal literal's token through its whole part and its
fraction. -/
theorem byteLiteral_decimal {whole : List Char} {fraction : Option (List Char)}
    (hw : whole ≠ [] ∧ ∀ c ∈ whole, isDigit c = true)
    (hf : ∀ fs ∈ fraction, fs ≠ [] ∧ ∀ c ∈ fs, isDigit c = true) :
    byteLiteral (String.ofList (whole ++ NumberLiteral.pointed fraction)) =
      if digitsNumber 10 whole < 256 ∧ (fraction.getD []).all (· = '0') then
        some (digitsNumber 10 whole).toUInt8 else none := by
  have hnodot : ∀ c ∈ whole, decide (c ≠ '.') = true := fun c hc => by
    have := hw.2 c hc
    simp only [decide_eq_true_eq]
    rintro rfl
    simp [isDigit] at this
  -- the point, if there is one, ends the whole part and starts the fraction
  have htake : (whole ++ NumberLiteral.pointed fraction).takeWhile (· ≠ '.') = whole := by
    rw [List.takeWhile_append_of_pos hnodot]
    cases fraction <;> simp [NumberLiteral.pointed]
  have hdrop : ((whole ++ NumberLiteral.pointed fraction).dropWhile (· ≠ '.')).drop 1 =
      fraction.getD [] := by
    rw [List.dropWhile_append_of_pos hnodot]
    cases fraction <;> simp [NumberLiteral.pointed]
  obtain ⟨c, ds, hcons⟩ := List.exists_cons_of_ne_nil hw.1
  have hval : Text.readInteger? false whole = some (digitsNumber 10 whole : Int) := by
    rw [hcons, readInteger_of_isDigit (hw.2 c (by simp [hcons])), ← hcons,
      digitsValue_eq hw.1 fun d hd => digitValue_ten_isSome (hw.2 d hd)]
    rfl
  simp only [byteLiteral, String.toList_ofList, htake, hdrop, hval]
  simp

/-- Code generation reads the decimal text of a number as the number. -/
theorem byteLiteral_toString (n : Nat) :
    byteLiteral (toString n) = if n < 256 then some n.toUInt8 else none := by
  have hdigits : ∀ c ∈ Nat.toDigits 10 n, isDigit c = true :=
    fun _ hc => Nat.isDigit_of_mem_toDigits (by decide) (by decide) hc
  have hnodot : ∀ c ∈ Nat.toDigits 10 n, decide (c ≠ '.') = true := fun c hc => by
    have := hdigits c hc
    simp only [decide_eq_true_eq]
    rintro rfl
    simp [isDigit] at this
  obtain ⟨c, ds, hcons⟩ := List.exists_cons_of_ne_nil (Nat.toDigits_ne_nil (n := n) (b := 10))
  have hval : Text.readInteger? false (Nat.toDigits 10 n) = some (n : Int) := by
    rw [hcons, readInteger_of_isDigit (hdigits c (by simp [hcons])), ← hcons,
      Text.digitsValue_toDigits]
    rfl
  -- the text has no point: all of it is the whole part
  have hlist : (toString n).toList = Nat.toDigits 10 n := by simp [Nat.toList_repr]
  have htake : (Nat.toDigits 10 n).takeWhile (· ≠ '.') = Nat.toDigits 10 n :=
    List.takeWhile_eq_self_iff.2 hnodot
  have hdrop : (Nat.toDigits 10 n).dropWhile (· ≠ '.') = [] := List.dropWhile_eq_nil_iff.2 hnodot
  simp only [byteLiteral, hlist, htake, hdrop, hval]
  simp

/-- A literal whose value is a byte does not overflow. -/
theorem not_overflows_of_value {L : NumberLiteral} {n : Nat} (hn : n ≤ 255) (hv : L.value = n) :
    ¬ L.Overflows := by
  cases L with
  | decimal => exact id
  | radix letter base digits hl hd =>
      intro hover
      simp only [NumberLiteral.value, Nat.cast_inj] at hv
      simp only [NumberLiteral.Overflows] at hover
      omega

/-- Code generation reads a literal's token as a byte exactly when the literal's value is a
whole number that fits in a byte, and then as that number. -/
theorem byteLiteral_lexeme (L : NumberLiteral) (v : UInt8) :
    byteLiteral L.lexeme = some v ↔ ∃ n : Nat, n ≤ 255 ∧ L.value = n ∧ v = n.toUInt8 := by
  cases L with
  | decimal whole fraction hw hf =>
      simp only [NumberLiteral.lexeme, byteLiteral_decimal hw hf, decimal_value_eq_nat]
      constructor
      · intro h
        split at h
        · rename_i hcond
          refine ⟨_, by omega, ⟨rfl, by simpa using hcond.2⟩, (Option.some.inj h).symm⟩
        · cases h
      · rintro ⟨n, hn, ⟨hw', hzero⟩, rfl⟩
        rw [if_pos ⟨by omega, by simpa using hzero⟩, hw']
  | radix letter base digits hl hd =>
      simp only [NumberLiteral.lexeme, NumberLiteral.value, byteLiteral_toString, Nat.cast_inj]
      constructor
      · intro h
        split at h
        · exact ⟨_, by omega, rfl, (Option.some.inj h).symm⟩
        · cases h
      · rintro ⟨n, hn, rfl, rfl⟩
        rw [if_pos (by omega)]

/-- Compiling `out` with a number literal has one of three outcomes. When the literal's value is
a whole number that fits in a byte, the program loads that byte into A, outputs it and halts. A
radix literal whose value needs more than 64 bits stops the lexer. Every other literal is out of
range for code generation, which names the text of the literal's token. -/
theorem out_literal_outcome (L : NumberLiteral) :
    let source := "out " ++ String.ofList L.spelling
    (∀ n : Nat, n ≤ 255 → L.value = n →
        ∃ code, compile source = .ok ⟨["load rom a " ++ toString n, "out a", "halt"], code⟩) ∧
      (L.Overflows → ∃ p text, compile source = .error (.lex ⟨p, .numberOverflow text⟩)) ∧
      ((∀ n : Nat, n ≤ 255 → L.value ≠ n) → ¬ L.Overflows →
        compile source = .error (.codegen (.numberOutOfRange L.lexeme))) := by
  intro source
  obtain ⟨c, rest, hspell, hread, hover⟩ := readToken_literal L
  have hsource : source = "out " ++ String.ofList (c :: rest) := by
    show "out " ++ String.ofList L.spelling = _
    rw [hspell]
  rw [hsource]
  refine ⟨fun n hn hv => ?_, fun h => ?_, fun hnot hno => ?_⟩
  · -- a byte is read back as itself
    obtain ⟨code, hcode⟩ := (compile_out_number (hread (not_overflows_of_value hn hv))).1
      n.toUInt8 ((byteLiteral_lexeme L _).2 ⟨n, hn, hv, rfl⟩)
    have hnat : n.toUInt8.toNat = n := by
      simp
      omega
    rw [hnat] at hcode
    exact ⟨code, hcode⟩
  · obtain ⟨text, ht⟩ := hover h
    obtain ⟨p, hp⟩ := tokenize_out_fault ht
    exact ⟨p, text, by rw [compile, generateSource, hp]; rfl⟩
  · -- no byte is read from the token
    have hnone : byteLiteral L.lexeme = none := by
      cases hb : byteLiteral L.lexeme with
      | none => rfl
      | some v =>
          obtain ⟨n, hn, hv, -⟩ := (byteLiteral_lexeme L v).1 hb
          exact absurd hv (hnot n hn)
    exact (compile_out_number (hread hno)).2 hnone

end ByteMachine.Compiler
