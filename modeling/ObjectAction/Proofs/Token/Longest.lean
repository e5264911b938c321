/-
Every token is as long as it can be. What would make a token longer is said of its kind, its spelling and the text
right behind it (`Prolongs`): a second character for a symbol, more letters or a double colon for a word, the second
word of a closing keyword, more digits, a fraction or an exponent for a number.

Main statement: the text behind a token never does (`tokenize_longest`), wherever the token stands: between others,
behind a comment, or behind characters that were skipped.
-/
import ObjectAction.Proofs.Token.Position
import ObjectAction.Proofs.Token.Spacing

namespace ObjectAction

open Text (Mark isBlank)

namespace Text

/-- The text behind a byte offset. -/
def after (text : String) (offset : Nat) : List Char := dropBytes offset text.toList

theorem after_behind {text : String} {cs rest : List Char} (h : text.toList = cs ++ rest) :
    after text (Mark.behind cs).offset = rest := by
  unfold after
  rw [h]
  exact dropBytes_append cs rest

end Text

namespace Token

/-! ## Longer tokens -/

/-- Whether the token is one word, so no closing keyword. -/
def Kind.isOneWord : Kind → Bool
  | identifier _ => true
  | keyword k => k ∉ [Keyword.endFor, .endIf, .endWhile]
  | _ => false

def Kind.isNumber : Kind → Bool
  | integer _ | real _ => true
  | _ => false

/-- A token of that kind and spelling would go on into the text right behind it. -/
inductive Prolongs : Kind → List Char → List Char → Prop
  | arrow {text rest : List Char} : Prolongs (.symbol .minus) text ('>' :: rest)
  | equals {s : Symbol} {text rest : List Char} (hs : s ∈ [Symbol.less, .greater, .equal]) :
    Prolongs (.symbol s) text ('=' :: rest)
  | doubleColon {text rest : List Char} : Prolongs (.symbol .colon) text (':' :: rest)
  | comment {c : Char} {text rest : List Char} (hc : c ∈ ['/', '*']) : Prolongs (.symbol .slash) text (c :: rest)
  | word {kind : Kind} {c : Char} {text rest : List Char} (hkind : kind.isOneWord = true)
    (hc : isWordChar c = true) : Prolongs kind text (c :: rest)
  | qualifier {kind : Kind} {text rest : List Char} (hkind : kind.isOneWord = true) :
    Prolongs kind text (':' :: ':' :: rest)
  /-- The second word of a closing keyword has to be whole. -/
  | closing {text gap word rest : List Char} (hgap : gap ≠ []) (hblank : ∀ c ∈ gap, isBlank c = true)
    (hword : String.ofList (word.map Char.toLower) ∈ ["for", "if", "while"])
    (hwhole : ∀ c ∈ rest.head?, isWordChar c = false) : Prolongs (.keyword .«end») text (gap ++ (word ++ rest))
  | digit {kind : Kind} {d : Char} {text rest : List Char} (hkind : kind.isNumber = true) (hd : d.isDigit = true) :
    Prolongs kind text (d :: rest)
  | fraction {n : Int64} {text fraction rest : List Char} (h : IsFraction fraction) :
    Prolongs (.integer n) text (fraction ++ rest)
  | exponent {n : Int64} {text exponent rest : List Char} (h : IsExponent exponent) :
    Prolongs (.integer n) text (exponent ++ rest)
  /-- A real has one exponent at most. -/
  | realExponent {x : Float} {text exponent rest : List Char} (hnone : ∀ c ∈ text, c ≠ 'e' ∧ c ≠ 'E')
    (h : IsExponent exponent) : Prolongs (.real x) text (exponent ++ rest)

/-- Qualifiers, closing keywords and what stands in quotes end with themselves. -/
theorem Prolongs.kind_cases {kind : Kind} {text rest : List Char} (h : Prolongs kind text rest) :
    (∃ s, kind = .symbol s) ∨ kind.isOneWord = true ∨ kind.isNumber = true := by
  cases h with
  | arrow | equals | doubleColon | comment => exact .inl ⟨_, rfl⟩
  | word hkind | qualifier hkind => exact .inr (.inl hkind)
  | closing => exact .inr (.inl rfl)
  | digit hkind => exact .inr (.inr hkind)
  | fraction | exponent | realExponent => exact .inr (.inr rfl)

/-! ## Symbols -/

/-- The characters that make a symbol longer. -/
theorem Prolongs.of_symbol {s : Symbol} {text rest : List Char} (h : Prolongs (.symbol s) text rest) :
    ∃ c after, rest = c :: after ∧ (s, c) ∈ [(Symbol.minus, '>'), (.less, '='), (.greater, '='), (.equal, '='),
      (.colon, ':'), (.slash, '/'), (.slash, '*')] := by
  cases h with
  | arrow | doubleColon => exact ⟨_, _, rfl, by simp⟩
  | equals hs =>
    refine ⟨_, _, rfl, ?_⟩
    simp only [List.mem_cons, List.not_mem_nil, or_false] at hs
    rcases hs with rfl | rfl | rfl <;> simp
  | comment hc =>
    refine ⟨_, _, rfl, ?_⟩
    simp only [List.mem_cons, List.not_mem_nil, or_false] at hc
    rcases hc with rfl | rfl <;> simp
  | word hkind | qualifier hkind | digit hkind => cases hkind

/-- Of two symbols the longer one is taken; only a slash could begin something longer that is no symbol. -/
theorem not_prolongs_symbolAt {c : Char} {cs text : List Char} {s : Symbol} {n : Nat}
    (h : symbolAt c cs = some (s, n)) (hline : ¬ (c = '/' ∧ cs.head? = some '/'))
    (hblock : ¬ (c = '/' ∧ cs.head? = some '*')) : ¬ Prolongs (.symbol s) text (cs.drop n) := by
  intro hlonger
  obtain ⟨d, after, hrest, hmem⟩ := hlonger.of_symbol
  -- a symbol that can be longer has one character, so that the rest is all behind it
  have htext := text_of_symbolAt h
  have hone : s.text.toList.length = 1 := by
    simp only [List.mem_cons, Prod.mk.injEq, List.not_mem_nil, or_false] at hmem
    rcases hmem with ⟨rfl, -⟩ | ⟨rfl, -⟩ | ⟨rfl, -⟩ | ⟨rfl, -⟩ | ⟨rfl, -⟩ | ⟨rfl, -⟩ | ⟨rfl, -⟩ <;> rfl
  have hnone : cs.take n = [] := by
    rw [htext] at hone
    simpa using hone
  have hcs : cs = d :: after := by rw [← List.take_append_drop n cs, hnone, hrest, List.nil_append]
  rw [hnone] at htext
  subst hcs
  simp only [List.mem_cons, Prod.mk.injEq, List.not_mem_nil, or_false] at hmem
  rcases hmem with ⟨rfl, rfl⟩ | ⟨rfl, rfl⟩ | ⟨rfl, rfl⟩ | ⟨rfl, rfl⟩ | ⟨rfl, rfl⟩ | ⟨rfl, rfl⟩ | ⟨rfl, rfl⟩
  all_goals
    obtain rfl : _ = c := by simpa [Symbol.text] using htext
    simp_all [symbolAt]

/-! ## Words -/

/-- Blanks and a whole word that closes are found behind an `end`. -/
theorem closingAfter_isSome {gap word rest : List Char} (hgap : gap ≠ []) (hblank : ∀ c ∈ gap, isBlank c = true)
    (hword : String.ofList (word.map Char.toLower) ∈ ["for", "if", "while"])
    (hwhole : ∀ c ∈ rest.head?, isWordChar c = false) : closingAfter (gap ++ (word ++ rest)) ≠ none := by
  obtain ⟨k, hk⟩ := closing?_eq_some_iff.mpr hword
  obtain ⟨c, cs, rfl, hc, hcs⟩ := isWord_of_closing hword
  have hstart : ∀ b ∈ (c :: cs ++ rest).head?, isBlank b = false := by
    intro b hb
    obtain rfl : c = b := by simpa using hb
    have hcode := Lexeme.wordStart_code hc
    exact Lexeme.not_blank_of_code (by omega) (by omega)
  have hall : ∀ d ∈ c :: cs, isWordChar d = true :=
    List.forall_mem_cons.mpr ⟨Lexeme.isWordChar_of_isWordStart hc, hcs⟩
  unfold closingAfter
  rw [takeWhile_run hblank hstart, dropWhile_run hblank hstart, takeWhile_run hall hwhole]
  simp [hgap, hk]

/-- What makes a single word longer. -/
theorem Prolongs.of_word {kind : Kind} {text rest : List Char} (h : Prolongs kind text rest)
    (hkind : kind.isOneWord = true) : (∃ c ∈ rest.head?, isWordChar c = true) ∨ [':', ':'].isPrefixOf rest = true ∨
      (kind = .keyword .«end» ∧ closingAfter rest ≠ none) := by
  cases h with
  | word _ hc => exact .inl ⟨_, rfl, hc⟩
  | qualifier => exact .inr (.inl rfl)
  | closing hgap hblank hword hwhole => exact .inr (.inr ⟨rfl, closingAfter_isSome hgap hblank hword hwhole⟩)
  | arrow | equals | doubleColon | comment | fraction | exponent | realExponent => cases hkind
  | digit hnumber => cases kind <;> simp_all [Kind.isOneWord, Kind.isNumber]

/-- A word takes all characters of words and its double colon, and an `end` takes the word that closes it. -/
theorem not_prolongs_word {c : Char} {cs text : List Char} {kind : Kind} {n : Nat}
    (h : word c cs = (.token kind, n)) : ¬ Prolongs kind text (cs.drop n) := by
  intro hlonger
  have hstop := head?_dropWhile_not isWordChar cs
  unfold word at h
  dsimp only at h
  split at h
  · cases h
    rcases hlonger.kind_cases with ⟨s, hs⟩ | hword | hnumber
    · cases hs
    · cases hword
    · cases hnumber
  · rename_i hcolons
    -- whatever the word is, it goes on only as an `end` that is closed
    have hsingle : ∀ k : Kind, k.isOneWord = true → Prolongs k text (cs.drop (cs.takeWhile isWordChar).length) →
        k = .keyword .«end» ∧ closingAfter (cs.dropWhile isWordChar) ≠ none := by
      intro k hk hlonger
      rw [drop_takeWhile] at hlonger
      rcases hlonger.of_word hk with ⟨d, hd, hword⟩ | hprefix | hend
      · rw [hstop d hd] at hword
        cases hword
      · exact absurd hprefix hcolons
      · exact hend
    split at h
    · split at h
      · rename_i k more hclosing
        obtain ⟨gap, second, -, -, hk, -⟩ := closingAfter_eq_some hclosing
        have hmem := closing?_eq_some hk
        cases h
        rcases hlonger.kind_cases with ⟨s, hs⟩ | hword | hnumber
        · cases hs
        · have hclosed : ∀ p ∈ [("for", Keyword.endFor), ("if", .endIf), ("while", .endWhile)],
              Kind.isOneWord (.keyword p.2) = false := by decide
          rw [hclosed _ hmem] at hword
          cases hword
        · cases hnumber
      · rename_i hnone
        cases h
        exact (hsingle _ rfl hlonger).2 hnone
    · rename_i k hne hk
      cases h
      have hopen : ∀ p ∈ Keyword.words, Kind.isOneWord (.keyword p.2) = true := by decide
      obtain ⟨hend, -⟩ := hsingle _ (hopen _ (ofWord?_eq_some hk)) hlonger
      cases hend
      exact hne rfl
    · cases h
      exact absurd (hsingle _ rfl hlonger).1 nofun

/-! ## Numbers -/

theorem fractionLength_ne_zero {fraction : List Char} (h : IsFraction fraction) (rest : List Char) :
    fractionLength (fraction ++ rest) ≠ 0 := by
  obtain ⟨ds, ⟨hne, hdigits⟩, rfl⟩ := h
  obtain ⟨d, ds, rfl⟩ := List.exists_cons_of_ne_nil hne
  have hd := hdigits d List.mem_cons_self
  simp [fractionLength, hd]

/-- An exponent is found whatever follows it: the digits behind it belong to it. -/
theorem exponentLength_ne_zero {exponent : List Char} (h : IsExponent exponent) (rest : List Char) :
    exponentLength (exponent ++ rest) ≠ 0 := by
  obtain ⟨e, sign, ds, he, hsign, hds, rfl⟩ := h
  have hlower : e.toLower = 'e' := by rcases he with rfl | rfl <;> decide
  have hmore : IsDigits (ds ++ rest.takeWhile Char.isDigit) := by
    refine ⟨by simp [hds.1], fun d hd => ?_⟩
    rcases List.mem_append.mp hd with hd | hd
    · exact hds.2 d hd
    · exact List.mem_takeWhile_imp hd
  have hlength := signedDigitsLength_append hsign hmore (head?_dropWhile_not Char.isDigit rest)
  rw [List.append_assoc, List.append_assoc, List.takeWhile_append_dropWhile] at hlength
  have hpos := List.length_pos_iff.mpr hmore.1
  rw [List.cons_append, List.append_assoc, exponentLength, hlength, if_pos ⟨hlower, by omega⟩]
  omega

/-- Behind a fraction stands no digit. -/
theorem head?_drop_fractionLength {cs : List Char} (h : fractionLength cs ≠ 0) :
    ∀ d ∈ (cs.drop (fractionLength cs)).head?, d.isDigit = false := by
  unfold fractionLength at h ⊢
  split at h
  · split at h
    · exact absurd rfl h
    · rename_i hne
      rw [if_neg hne, List.drop_succ_cons, drop_takeWhile]
      exact head?_dropWhile_not _ _
  · exact absurd rfl h

theorem head?_drop_signedDigitsLength {cs : List Char} (h : signedDigitsLength cs ≠ 0) :
    ∀ d ∈ (cs.drop (signedDigitsLength cs)).head?, d.isDigit = false := by
  have hstop := fun ds => head?_dropWhile_not Char.isDigit ds
  unfold signedDigitsLength at h ⊢
  split at h
  iterate 2
    · split at h
      · exact absurd rfl h
      · rename_i hne
        rw [if_neg hne, List.drop_succ_cons, drop_takeWhile]
        exact hstop _
  · rw [drop_takeWhile]
    exact hstop _

theorem head?_drop_exponentLength {cs : List Char} (h : exponentLength cs ≠ 0) :
    ∀ d ∈ (cs.drop (exponentLength cs)).head?, d.isDigit = false := by
  unfold exponentLength at h ⊢
  split at h
  · split at h
    · rename_i hexponent
      rw [if_pos hexponent, List.drop_succ_cons]
      exact head?_drop_signedDigitsLength hexponent.2
    · exact absurd rfl h
  · exact absurd rfl h

/-- What makes a number longer. -/
theorem Prolongs.of_number {kind : Kind} {text rest : List Char} (h : Prolongs kind text rest)
    (hkind : kind.isNumber = true) : (∃ d ∈ rest.head?, d.isDigit = true) ∨
      (∃ n, kind = .integer n ∧ (fractionLength rest ≠ 0 ∨ exponentLength rest ≠ 0)) ∨
      ∃ x, kind = .real x ∧ (∀ c ∈ text, c ≠ 'e' ∧ c ≠ 'E') ∧ exponentLength rest ≠ 0 := by
  cases h with
  | digit _ hd => exact .inl ⟨_, rfl, hd⟩
  | fraction h => exact .inr (.inl ⟨_, rfl, .inl (fractionLength_ne_zero h _)⟩)
  | exponent h => exact .inr (.inl ⟨_, rfl, .inr (exponentLength_ne_zero h _)⟩)
  | realExponent hnone h => exact .inr (.inr ⟨_, rfl, hnone, exponentLength_ne_zero h _⟩)
  | arrow | equals | doubleColon | comment | closing => cases hkind
  | word hword | qualifier hword => cases kind <;> simp_all [Kind.isOneWord, Kind.isNumber]

/-- Which parts a number has, by its kind. -/
theorem number_token {c : Char} {digits after : List Char} {kind : Kind} {n : Nat}
    (hdigits : ∀ d ∈ digits, d.isDigit = true) (hend : ∀ d ∈ after.head?, d.isDigit = false)
    (h : number c (digits ++ after) = (.token kind, n)) :
    n = digits.length + (fractionLength after + exponentLength (after.drop (fractionLength after))) ∧
      kind.isNumber = true ∧
      ((∃ i, kind = .integer i) ↔ fractionLength after + exponentLength (after.drop (fractionLength after)) = 0) := by
  unfold number at h
  rw [takeWhile_run hdigits hend] at h
  dsimp only at h
  rw [List.drop_left, List.drop_length_add_append, Nat.add_assoc] at h
  split at h
  · rename_i k hk
    cases h
    refine ⟨rfl, ?_⟩
    split at hk
    · rename_i hzero
      obtain ⟨i, -, rfl⟩ := Option.map_eq_some_iff.mp hk
      exact ⟨rfl, fun _ => hzero, fun _ => ⟨i, rfl⟩⟩
    · rename_i hzero
      obtain ⟨x, -, rfl⟩ := Option.map_eq_some_iff.mp hk
      refine ⟨rfl, ?_, fun h => absurd h hzero⟩
      rintro ⟨i, hi⟩
      cases hi
  · cases h

/-- No digit stands behind a number, whichever of its parts is the last. -/
theorem head?_drop_number {after : List Char} (hend : ∀ d ∈ after.head?, d.isDigit = false) :
    ∀ d ∈ (after.drop (fractionLength after + exponentLength (after.drop (fractionLength after)))).head?,
      d.isDigit = false := by
  rw [← List.drop_drop]
  by_cases hexponent : exponentLength (after.drop (fractionLength after)) = 0
  · rw [hexponent, List.drop_zero]
    by_cases hfraction : fractionLength after = 0
    · rw [hfraction]
      exact hend
    · exact head?_drop_fractionLength hfraction
  · exact head?_drop_exponentLength hexponent

/-- A number takes all its digits, its fraction and its exponent. -/
theorem not_prolongs_number {c : Char} {cs : List Char} {kind : Kind} {n : Nat}
    (h : number c cs = (.token kind, n)) : ¬ Prolongs kind (c :: cs.take n) (cs.drop n) := by
  intro hlonger
  have hcs : cs.takeWhile Char.isDigit ++ cs.dropWhile Char.isDigit = cs := List.takeWhile_append_dropWhile
  have hdigits : ∀ d ∈ cs.takeWhile Char.isDigit, d.isDigit = true := fun d hd => List.mem_takeWhile_imp hd
  have hend := head?_dropWhile_not Char.isDigit cs
  generalize cs.takeWhile Char.isDigit = digits at hcs hdigits
  generalize cs.dropWhile Char.isDigit = after at hcs hend
  subst hcs
  obtain ⟨rfl, hkind, hinteger⟩ := number_token hdigits hend h
  rw [List.take_length_add_append, List.drop_length_add_append] at hlonger
  rcases hlonger.of_number hkind with ⟨d, hd, hdigit⟩ | ⟨i, rfl, hmore⟩ | ⟨x, rfl, hnone, hmore⟩
  · rw [head?_drop_number hend d hd] at hdigit
    cases hdigit
  · -- an integer has neither of the two parts, and none is found behind it
    have hzero := hinteger.mp ⟨i, rfl⟩
    obtain ⟨hfraction, hexponent⟩ := Nat.add_eq_zero_iff.mp hzero
    rw [hzero, List.drop_zero] at hmore
    rw [hfraction, List.drop_zero] at hexponent
    exact hmore.elim (absurd hfraction) (absurd hexponent)
  · rcases isExponent_take (after.drop (fractionLength after)) with hzero | ⟨mark, sign, ds, hmark, -, -, htake⟩
    · rw [hzero, Nat.add_zero] at hmore
      exact hmore hzero
    · -- the mark of its exponent stands in the spelling of the real
      have hmem : mark ∈ c :: (digits ++ after.take (fractionLength after +
          exponentLength (after.drop (fractionLength after)))) := by
        rw [List.take_add, htake]
        simp
      obtain ⟨hsmall, hcapital⟩ := hnone mark hmem
      exact hmark.elim hsmall hcapital

/-! ## Pieces -/

theorem not_prolongs_quotation {q : Char} {makeKind : String → Kind} {flaw : Flaw} {cs text rest : List Char}
    {kind : Kind} {n : Nat} (hquoted : ∀ content, (makeKind content).isOneWord = false ∧
      (makeKind content).isNumber = false ∧ ∀ s, makeKind content ≠ .symbol s)
    (h : quotation q makeKind flaw cs = (.token kind, n)) : ¬ Prolongs kind text rest := by
  intro hlonger
  unfold quotation at h
  split at h
  · cases h
    obtain ⟨hword, hnumber, hsymbol⟩ := hquoted (String.ofList _)
    rcases hlonger.kind_cases with ⟨s, hs⟩ | hkind | hkind
    · exact hsymbol s hs
    · rw [hword] at hkind
      cases hkind
    · rw [hnumber] at hkind
      cases hkind
  · cases h

/-- The text behind a piece that is a token does not make it longer. -/
theorem not_prolongs_pieceAt {c : Char} {cs : List Char} {kind : Kind} (h : (pieceAt c cs).1 = .token kind) :
    ¬ Prolongs kind (c :: cs.take (pieceAt c cs).2) (cs.drop (pieceAt c cs).2) := by
  have heq : pieceAt c cs = (.token kind, (pieceAt c cs).2) := Prod.ext h rfl
  generalize (pieceAt c cs).2 = n at heq ⊢
  unfold pieceAt at heq
  split_ifs at heq with hblank hline hblock hstring hphrase hword hdigit
  · cases heq
  · cases heq
  · split at heq <;> cases heq
  · refine not_prolongs_quotation (fun content => ⟨rfl, rfl, fun s hs => ?_⟩) heq
    cases hs
  · refine not_prolongs_quotation (fun content => ⟨rfl, rfl, fun s hs => ?_⟩) heq
    cases hs
  · exact not_prolongs_word heq
  · exact not_prolongs_number heq
  · split at heq
    · rename_i s m hs
      cases heq
      exact not_prolongs_symbolAt hs hline hblock
    · cases heq

/-- Of the pieces of a text, none that is a token would go on into the pieces behind it. -/
theorem not_prolongs_pieces {cs : List Char} {front back : List Piece} {p : Piece} {kind : Kind}
    (h : pieces cs = front ++ p :: back) (hp : p.kind = .token kind) :
    ¬ Prolongs kind p.text (back.flatMap Piece.text) := by
  fun_induction pieces cs generalizing front with
  | case1 => simp at h
  | case2 c cs ih =>
    cases front with
    | cons q front => exact ih (List.cons.inj h).2
    | nil =>
      obtain ⟨rfl, rfl⟩ := List.cons.inj h
      rw [flatMap_pieces]
      exact not_prolongs_pieceAt hp

/-! ## Texts -/

/-- The longest token is taken at every place of a text: the text behind a token, which follows what is before the
token and the token itself, does not make it longer. -/
theorem tokenize_longest {text : String} {t : Token} (ht : t ∈ (tokenize text).tokens) :
    text.toList = Text.before text t.start.offset ++ t.lexeme.toList ++ Text.after text t.stop.offset ∧
      ¬ Prolongs t.kind t.lexeme.toList (Text.after text t.stop.offset) := by
  rw [tokens_tokenize, List.mem_append, List.mem_singleton] at ht
  rcases ht with ht | rfl
  · obtain ⟨front, p, back, hpieces, hp⟩ := mem_tokensAt ht
    obtain ⟨kind, hkind, rfl⟩ := tokenAt_eq_some_iff.mp hp
    have htext : text.toList = front.flatMap Piece.text ++ p.text ++ back.flatMap Piece.text := by
      rw [← flatMap_pieces text.toList, hpieces, List.flatMap_append, List.flatMap_cons, List.append_assoc]
    have hfront : text.toList = front.flatMap Piece.text ++ (p.text ++ back.flatMap Piece.text) := by
      rw [htext, List.append_assoc]
    dsimp only
    rw [← Mark.past_append, Mark.start_past, Mark.start_past, Text.before_behind hfront, Text.after_behind htext,
      String.toList_ofList]
    exact ⟨htext, not_prolongs_pieces hpieces hkind⟩
  · -- at the end of input nothing is left
    have hall : text.toList = text.toList ++ [] := (List.append_nil _).symm
    refine ⟨?_, fun hlonger => ?_⟩
    · simp only [atEnd, Mark.start_past]
      rw [Text.before_behind hall, Text.after_behind hall]
      simp
    · rcases hlonger.kind_cases with ⟨s, hs⟩ | hword | hnumber
      · cases hs
      · cases hword
      · cases hnumber

/-- A text where each token is followed by what almost makes it longer, with a skipped character in front. -/
def temptingText : String := "§END\n iffy- >2.e5"

theorem tokenize_longest_temptingText :
    (tokenize temptingText).tokens.map Token.lexeme = ["END", "iffy", "-", ">", "2", ".", "e5", ""] ∧
    ∃ t ∈ (tokenize temptingText).tokens, t.lexeme = "END" ∧
      Text.after temptingText t.stop.offset = "\n iffy- >2.e5".toList ∧
      ¬ Prolongs t.kind "END".toList "\n iffy- >2.e5".toList := by
  refine ⟨by decide +kernel, ?_⟩
  have hfirst : (tokenize temptingText).tokens.head?.map (fun t => (t.lexeme, t.stop.offset)) = some ("END", 5) := by
    decide +kernel
  obtain ⟨t, ht, hplace⟩ := Option.map_eq_some_iff.mp hfirst
  obtain ⟨hlexeme, hstop⟩ := Prod.mk.inj hplace
  have hrest : Text.after temptingText t.stop.offset = "\n iffy- >2.e5".toList := by
    rw [hstop]
    decide +kernel
  have hmem := List.mem_of_head? ht
  have hlongest := (tokenize_longest hmem).2
  rw [hrest, hlexeme] at hlongest
  exact ⟨t, hmem, hlexeme, hrest, hlongest⟩

end Token

end ObjectAction
