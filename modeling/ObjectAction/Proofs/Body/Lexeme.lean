/-
Lexemes: what the parser sees of a token, its kind and its spelling, without its place. A lexeme is
whole when its spelling, with a blank after it, is cut as one piece of its kind. Main statement: a
text of whole lexemes with single blanks between them is cut into exactly these lexemes,
`tokens_join`.
-/
import ObjectAction.Body.Stream
import Mathlib.Tactic

namespace ObjectAction

open Token

/-- The kind of a token and how it is spelled. -/
structure Lexeme where
  kind : Token.Kind
  text : String

/-- A token without its place. -/
def Token.bare (t : Token) : Lexeme := ⟨t.kind, t.lexeme⟩

namespace Lexeme

/-- The lexemes of a text in order, with a blank between each two. -/
def join (ls : List Lexeme) : String := " ".intercalate (ls.map text)

/-- The kind of the first lexeme; where there is none, the input ends. -/
def headKind (ls : List Lexeme) : Token.Kind := (ls.head?.map kind).getD .endOfInput

@[simp] theorem headKind_cons (l : Lexeme) (ls : List Lexeme) : headKind (l :: ls) = l.kind := rfl

/-- The spelling is cut as one piece of that kind when a blank follows it. -/
def Whole (l : Lexeme) : Prop :=
  ∃ c cs, l.text.toList = c :: cs ∧
    ∀ b rest, Text.isBlank b = true → pieceAt c (cs ++ b :: rest) = (.token l.kind, cs.length)

/-! ## Cutting a joined text -/

theorem pieceAt_blank {b : Char} (h : Text.isBlank b = true) (cs : List Char) :
    pieceAt b cs = (.blank, 0) := by
  unfold pieceAt; rw [if_pos h]

theorem pieces_blank {b : Char} (h : Text.isBlank b = true) (rest : List Char) :
    pieces (b :: rest) = ⟨.blank, [b]⟩ :: pieces rest := by
  rw [pieces, pieceAt_blank h]; simp

/-- A whole lexeme and the blank after it are two pieces. -/
theorem Whole.pieces {l : Lexeme} (h : l.Whole) {b : Char} (hb : Text.isBlank b = true) (rest : List Char) :
    pieces (l.text.toList ++ b :: rest) =
      ⟨.token l.kind, l.text.toList⟩ :: ⟨.blank, [b]⟩ :: Token.pieces rest := by
  obtain ⟨c, cs, hl, hp⟩ := h
  rw [hl, List.cons_append, Token.pieces, hp b rest hb]
  simp [pieces_blank hb]

theorem ofPieces_whole (m : Text.Mark) (l : Lexeme) (b : Char) (ps : List Piece) :
    (ofPieces m (⟨.token l.kind, l.text.toList⟩ :: ⟨.blank, [b]⟩ :: ps)).map Token.bare =
      l :: (ofPieces ((m.past l.text.toList).past [b]) ps).map Token.bare := by
  simp [ofPieces, Token.bare]

theorem toList_join (ls : List Lexeme) :
    (join ls).toList = [' '].intercalate (ls.map fun l => l.text.toList) := by
  simp [join, String.toList_intercalate, Function.comp_def]

/-- The tokens of lexemes that are each followed by a blank, the last one by `b`. -/
theorem tokens_intercalate {b : Char} (hb : Text.isBlank b = true) :
    ∀ (ls : List Lexeme), (∀ l ∈ ls, l.Whole) → ∀ m : Text.Mark,
      (ofPieces m (pieces ([' '].intercalate (ls.map fun l => l.text.toList) ++ [b]))).map Token.bare =
        ls ++ [⟨.endOfInput, ""⟩]
  | [], _, m => by
    rw [show [' '].intercalate (([] : List Lexeme).map fun l => l.text.toList) = [] from rfl, List.nil_append,
      pieces_blank hb]
    simp [pieces, ofPieces, atEnd, Token.bare]
  | [l], h, m => by
    have hl : l.Whole := h l (by simp)
    rw [List.map_cons, List.map_nil, List.intercalate_singleton, hl.pieces hb, ofPieces_whole]
    simp [pieces, ofPieces, atEnd, Token.bare]
  | l :: l' :: ls, h, m => by
    have hl : l.Whole := h l (by simp)
    have ih := tokens_intercalate hb (l' :: ls) (fun x hx => h x (by simp [hx]))
      ((m.past l.text.toList).past [' '])
    rw [List.map_cons, List.map_cons, List.intercalate_cons_cons]
    rw [List.append_assoc, List.append_assoc, List.singleton_append, hl.pieces (by decide), ofPieces_whole,
      ← List.map_cons (f := fun l : Lexeme => l.text.toList), ih]
    rfl

/-- A joined text with a line end after it holds its lexemes and no others. -/
theorem tokens_join (ls : List Lexeme) (h : ∀ l ∈ ls, l.Whole) :
    (tokenize (join ls ++ "\n")).tokens.map Token.bare = ls ++ [⟨.endOfInput, ""⟩] := by
  unfold tokenize
  rw [String.toList_append, toList_join]
  exact tokens_intercalate (by decide) ls h .start

/-! ## Words -/

/-- Whether a text is one word. -/
def isWord (w : String) : Bool :=
  match w.toList with
  | [] => false
  | c :: cs => isWordStart c && cs.all isWordChar

/-- What a word is where neither `::` nor a word that closes `end` follows it. -/
def wordKind (w : String) : Token.Kind :=
  match Keyword.ofWord? w.toList with
  | some k => .keyword k
  | none => .identifier w

/-- Whether a text is a word that can be used as a name: any but a reserved keyword. -/
def isName (w : String) : Bool := isWord w && Parser.isName (wordKind w)

end Lexeme

/-- How a keyword is written. -/
def Keyword.spelling : Keyword → String
  | .endFor => "end for"
  | .endIf => "end if"
  | .endWhile => "end while"
  | k => ((Keyword.words.find? fun w => w.2 = k).map Prod.fst).getD ""

namespace Lexeme

def symbol (s : Symbol) : Lexeme := ⟨.symbol s, s.text⟩

def keyword (k : Keyword) : Lexeme := ⟨.keyword k, k.spelling⟩

def name (w : String) : Lexeme := ⟨wordKind w, w⟩

def qualifier (w : String) : Lexeme := ⟨.qualifier w, w ++ "::"⟩

def integer (n : Int64) : Lexeme := ⟨.integer n, n.toInt.toNat.repr⟩

def string (content : String) : Lexeme := ⟨.string content, "\"" ++ content ++ "\""⟩

def phrase (content : String) : Lexeme := ⟨.phrase content, "'" ++ content ++ "'"⟩

/-! ## Blanks, letters and digits -/

theorem blank_code {b : Char} (h : Text.isBlank b = true) : b.toNat ≤ 32 ∨ 133 ≤ b.toNat := by
  simp [Text.isBlank, Text.blankRanges] at h
  omega

theorem not_blank_of_code {c : Char} (h1 : 32 < c.toNat) (h2 : c.toNat < 133) : Text.isBlank c = false := by
  by_contra hb
  have := blank_code (by simpa using hb)
  omega

/-- No visible character of ASCII is blank. -/
theorem blank_ne {b : Char} (h : Text.isBlank b = true) {c : Char} (h1 : 32 < c.toNat) (h2 : c.toNat < 133) :
    b ≠ c := by
  rintro rfl
  rw [not_blank_of_code h1 h2] at h; cases h

/-- Letters by their codes. -/
theorem isAlpha_eq (c : Char) :
    c.isAlpha = (decide (c.val ≥ 65 ∧ c.val ≤ 90) || (decide (c.val ≥ 97) && decide (c.val ≤ 122))) := rfl

theorem wordStart_code {c : Char} (h : isWordStart c = true) : 65 ≤ c.toNat ∧ c.toNat ≤ 122 := by
  simp [isWordStart, isAlpha_eq, UInt32.le_iff_toNat_le] at h
  rcases h with (h | h) | rfl
  · omega
  · omega
  · decide

theorem digit_code {c : Char} (h : c.isDigit = true) : 48 ≤ c.toNat ∧ c.toNat ≤ 57 := by
  simpa [Char.isDigit, UInt32.le_iff_toNat_le] using h

theorem blank_not_wordChar {b : Char} (h : Text.isBlank b = true) : isWordChar b = false := by
  have hc := blank_code h
  have hu : b ≠ '_' := blank_ne h (by decide) (by decide)
  simp [isWordChar, hu, Char.isAlphanum, isAlpha_eq, Char.isDigit, UInt32.le_iff_toNat_le]
  omega

theorem blank_not_digit {b : Char} (h : Text.isBlank b = true) : b.isDigit = false := by
  have hc := blank_code h
  by_contra hd
  have := digit_code (by simpa using hd)
  omega

theorem pieceAt_word {c : Char} (h : isWordStart c = true) (cs : List Char) : pieceAt c cs = word c cs := by
  have hc := wordStart_code h
  have h0 := not_blank_of_code (c := c) (by omega) (by omega)
  have h1 : c ≠ '/' := by rintro rfl; revert hc; decide
  have h2 : c ≠ '"' := by rintro rfl; revert hc; decide
  have h3 : c ≠ '\'' := by rintro rfl; revert hc; decide
  simp [pieceAt, h0, h1, h2, h3, h]

theorem pieceAt_number {c : Char} (h : c.isDigit = true) (cs : List Char) : pieceAt c cs = number c cs := by
  have hc := digit_code h
  have h0 := not_blank_of_code (c := c) (by omega) (by omega)
  have h1 : c ≠ '/' := by rintro rfl; revert hc; decide
  have h2 : c ≠ '"' := by rintro rfl; revert hc; decide
  have h3 : c ≠ '\'' := by rintro rfl; revert hc; decide
  have h4 : isWordStart c = false := by
    by_contra hw
    have := wordStart_code (by simpa using hw)
    omega
  simp [pieceAt, h0, h1, h2, h3, h, h4]

/-- A run ends at the first character that does not belong to it. -/
theorem takeWhile_stop {p : Char → Bool} {cs : List Char} (h : cs.all p = true) {b : Char} (hb : p b = false)
    (rest : List Char) : (cs ++ b :: rest).takeWhile p = cs := by
  rw [List.takeWhile_append_of_pos (by simpa using h)]
  simp [hb]

theorem dropWhile_stop {p : Char → Bool} {cs : List Char} (h : cs.all p = true) {b : Char} (hb : p b = false)
    (rest : List Char) : (cs ++ b :: rest).dropWhile p = b :: rest := by
  rw [List.dropWhile_append_of_pos (by simpa using h)]
  simp [hb]

/-! ## Whole lexemes -/

theorem isWord_cons {w : String} (h : isWord w = true) :
    ∃ c cs, w.toList = c :: cs ∧ isWordStart c = true ∧ cs.all isWordChar = true := by
  unfold isWord at h
  split at h
  · cases h
  · rename_i c cs hw
    rw [Bool.and_eq_true] at h
    exact ⟨c, cs, hw, h.1, h.2⟩

theorem word_whole {w : String} (h : isWord w = true) (he : Keyword.ofWord? w.toList ≠ some .«end») :
    (name w).Whole := by
  obtain ⟨c, cs, hw, hc, hcs⟩ := isWord_cons h
  refine ⟨c, cs, hw, fun b rest hb => ?_⟩
  have hb' := blank_not_wordChar hb
  have hcolon : b ≠ ':' := blank_ne hb (by decide) (by decide)
  rw [pieceAt_word hc]
  simp only [word, takeWhile_stop hcs hb', dropWhile_stop hcs hb']
  rw [if_neg (by simp [List.isPrefixOf, hcolon.symm])]
  have hname : String.ofList (c :: cs) = w := by rw [← hw, String.ofList_toList]
  simp only [name, wordKind, hw, hname] at he ⊢
  cases hk : Keyword.ofWord? (c :: cs) with
  | none => rfl
  | some k => cases k <;> first | rfl | exact absurd hk he

theorem name_whole {w : String} (h : isName w = true) : (name w).Whole := by
  simp only [isName, Bool.and_eq_true] at h
  refine word_whole h.1 fun he => ?_
  -- `end` is reserved
  have h2 := h.2
  simp only [wordKind, he] at h2
  exact absurd h2 (by decide)

theorem qualifier_whole {w : String} (h : isWord w = true) : (qualifier w).Whole := by
  obtain ⟨c, cs, hw, hc, hcs⟩ := isWord_cons h
  refine ⟨c, cs ++ [':', ':'], by simp [qualifier, hw], fun b rest _ => ?_⟩
  have hcolon : isWordChar ':' = false := by decide
  have hname : String.ofList (c :: cs) = w := by rw [← hw, String.ofList_toList]
  rw [pieceAt_word hc, List.append_assoc, List.cons_append]
  simp only [word, takeWhile_stop hcs hcolon, dropWhile_stop hcs hcolon, hname]
  rw [if_pos (by simp [List.isPrefixOf])]
  simp [qualifier]

/-- Every word of the keyword table is one word and denotes its keyword. -/
theorem words_spell : ∀ p ∈ Keyword.words, isWord p.1 = true ∧ Keyword.ofWord? p.1.toList = some p.2 := by
  decide +kernel

/-- A keyword of one word is spelled by the table. -/
theorem spelling_mem {k : Keyword} (h : k ∉ [Keyword.endFor, .endIf, .endWhile]) :
    (k.spelling, k) ∈ Keyword.words := by
  cases k <;> first | decide +kernel | simp at h

theorem isWordChar_of_isWordStart {c : Char} (h : isWordStart c = true) : isWordChar c = true := by
  simp only [isWordStart, isWordChar, Char.isAlphanum, Bool.or_eq_true] at h ⊢
  tauto

/-- A closing keyword goes on over blanks and the word that closes it. -/
theorem closingAfter_word {gap : List Char} (hgap : gap ≠ []) (hblank : gap.all Text.isBlank = true) {d : Char}
    {ds : List Char} (hd : isWordStart d = true) (hds : ds.all isWordChar = true) {k : Keyword}
    (hk : Keyword.closing? (d :: ds) = some k) {b : Char} (hb : Text.isBlank b = true) (rest : List Char) :
    closingAfter (gap ++ d :: (ds ++ b :: rest)) = some (k, gap.length + (ds.length + 1)) := by
  have hc := wordStart_code hd
  have hd' : Text.isBlank d = false := not_blank_of_code (by omega) (by omega)
  have hall : (d :: ds).all isWordChar = true := by simp [isWordChar_of_isWordStart hd, hds]
  have hword : (d :: (ds ++ b :: rest)).takeWhile isWordChar = d :: ds :=
    takeWhile_stop hall (blank_not_wordChar hb) rest
  simp only [closingAfter, takeWhile_stop hblank hd', dropWhile_stop hblank hd', hword, hk]
  simp [hgap]

/-- `end`, blanks and a word that closes it are one keyword. -/
theorem closing_whole {c : Char} {cs gap : List Char} (hc : isWordStart c = true) (hcs : cs.all isWordChar = true)
    (hend : Keyword.ofWord? (c :: cs) = some .«end») (hgap : gap ≠ []) (hblank : gap.all Text.isBlank = true)
    {d : Char} {ds : List Char} (hd : isWordStart d = true) (hds : ds.all isWordChar = true) {k : Keyword}
    (hk : Keyword.closing? (d :: ds) = some k) {text : String} (ht : text.toList = c :: cs ++ gap ++ d :: ds) :
    Whole ⟨.keyword k, text⟩ := by
  obtain ⟨g, gs, rfl⟩ := List.exists_cons_of_ne_nil hgap
  have hg : Text.isBlank g = true := by simp_all
  refine ⟨c, cs ++ g :: (gs ++ d :: ds), by simpa using ht, fun b rest hb => ?_⟩
  have htake := takeWhile_stop hcs (blank_not_wordChar hg) (gs ++ d :: (ds ++ b :: rest))
  have hdrop := dropWhile_stop hcs (blank_not_wordChar hg) (gs ++ d :: (ds ++ b :: rest))
  have hclosing := closingAfter_word hgap hblank hd hds hk hb rest
  have hcolon : g ≠ ':' := blank_ne hg (by decide) (by decide)
  simp only [List.append_assoc, List.cons_append] at hclosing ⊢
  rw [pieceAt_word hc]
  simp only [word, htake, hdrop, hend, hclosing]
  rw [if_neg (by simp [List.isPrefixOf, hcolon.symm])]
  simp; omega

theorem keyword_whole {k : Keyword} (h : k ≠ .«end») : (keyword k).Whole := by
  by_cases hc : k ∈ [Keyword.endFor, .endIf, .endWhile]
  · have hclosing : ∀ d ds, isWordStart d = true → ds.all isWordChar = true → Keyword.closing? (d :: ds) = some k →
        k.spelling.toList = ['e', 'n', 'd'] ++ [' '] ++ d :: ds → (keyword k).Whole := fun d ds hd hds hk ht =>
      closing_whole (by decide) (by decide) (by decide) (by decide) (by decide) hd hds hk ht
    simp only [List.mem_cons, List.not_mem_nil, or_false] at hc
    rcases hc with rfl | rfl | rfl
    · exact hclosing 'f' ['o', 'r'] (by decide) (by decide) (by decide) (by decide)
    · exact hclosing 'i' ['f'] (by decide) (by decide) (by decide) (by decide)
    · exact hclosing 'w' ['h', 'i', 'l', 'e'] (by decide) (by decide) (by decide) (by decide)
  · obtain ⟨hw, hk⟩ := words_spell _ (spelling_mem hc)
    have hn : keyword k = name k.spelling := by simp [keyword, name, wordKind, hk]
    rw [hn]
    exact word_whole hw (by rw [hk]; simpa using h)

theorem ofDigits_toDigits (n : Nat) : Number.ofDigits (Nat.toDigits 10 n) = n := by
  have h := Nat.ofDigitChars_ten_toDigits (n := n)
  rw [Nat.ofDigitChars_eq_foldl] at h
  exact h

theorem int64?_of_toInt {n : Int64} {m : Nat} (h : n.toInt = m) : Number.int64? m = some n := by
  have hmax : n.toInt ≤ 9223372036854775807 := Int64.toInt_le n
  unfold Number.int64?
  rw [if_pos ⟨by omega, by omega⟩, ← h, Int64.ofInt_toInt]

theorem int64?_toNat {n : Int64} (h : 0 ≤ n) : Number.int64? (n.toInt.toNat : Nat) = some n :=
  int64?_of_toInt (Int.toNat_of_nonneg (Int64.le_iff_toInt_le.1 h)).symm

/-- A blank ends a number: it begins neither a fraction nor an exponent. -/
theorem number_stop {b : Char} (hb : Text.isBlank b = true) (rest : List Char) :
    fractionLength (b :: rest) = 0 ∧ exponentLength (b :: rest) = 0 := by
  have hdot : b ≠ '.' := blank_ne hb (by decide) (by decide)
  have he : b ≠ 'e' := blank_ne hb (by decide) (by decide)
  have hlower : b.toLower = b := by
    have := blank_code hb
    unfold Char.toLower
    rw [dif_neg]
    simp [UInt32.le_iff_toNat_le]
    omega
  refine ⟨?_, by simp [exponentLength, hlower, he]⟩
  unfold fractionLength
  split
  · rename_i heq; cases heq; exact absurd rfl hdot
  · rfl

theorem integer_whole {n : Int64} (h : 0 ≤ n) : (integer n).Whole := by
  have hd : ∀ d ∈ Nat.toDigits 10 n.toInt.toNat, d.isDigit = true :=
    fun d hd => Nat.isDigit_of_mem_toDigits (by decide) (by decide) hd
  have hval := ofDigits_toDigits n.toInt.toNat
  obtain ⟨c, cs, hcs⟩ := List.exists_cons_of_ne_nil (Nat.toDigits_ne_nil (n := n.toInt.toNat) (b := 10))
  rw [hcs] at hd hval
  refine ⟨c, cs, by rw [← hcs]; exact Nat.toList_repr, fun b rest hb => ?_⟩
  have hall : cs.all Char.isDigit = true := by
    rw [List.all_eq_true]; exact fun d h => hd d (by simp [h])
  obtain ⟨hf, he⟩ := number_stop hb rest
  rw [pieceAt_number (hd c (by simp))]
  simp only [number, takeWhile_stop hall (blank_not_digit hb), List.drop_left, hf, he, Nat.add_zero,
    List.take_left, hval, int64?_toNat h, if_true, Option.map_some, integer]

theorem quoted_stop {q : Char} {cs : List Char} (h : cs.all (fun c => c ≠ q ∧ c ≠ '\n') = true) (rest : List Char) :
    quoted q (cs ++ q :: rest) = some cs := by
  have hq : (fun c : Char => decide (c ≠ q ∧ c ≠ '\n')) q = false := by simp
  simp only [quoted]
  rw [takeWhile_stop h hq]
  simp

theorem string_whole {content : String} (h : content.toList.all (fun c => c ≠ '"' ∧ c ≠ '\n') = true) :
    (string content).Whole := by
  refine ⟨'"', content.toList ++ ['"'], by simp [string], fun b rest _ => ?_⟩
  have hq : Text.isBlank '"' = false := by decide
  rw [List.append_assoc, List.cons_append]
  simp [pieceAt, hq, quotation, quoted_stop h, string]

theorem phrase_whole {content : String} (h : content.toList.all (fun c => c ≠ '\'' ∧ c ≠ '\n') = true) :
    (phrase content).Whole := by
  refine ⟨'\'', content.toList ++ ['\''], by simp [phrase], fun b rest _ => ?_⟩
  have hq : Text.isBlank '\'' = false := by decide
  rw [List.append_assoc, List.cons_append]
  simp [pieceAt, hq, quotation, quoted_stop h, phrase]

/-- What begins with none of the other pieces' first characters is cut as a symbol. -/
theorem pieceAt_symbol {c : Char} {cs : List Char} {s : Symbol} {n : Nat}
    (h : (Text.isBlank c || isWordStart c || c.isDigit || c = '"' || c = '\'') = false)
    (hs : c = '/' → cs.head? ≠ some '/' ∧ cs.head? ≠ some '*') (hcut : symbolAt c cs = some (s, n)) :
    pieceAt c cs = (.token (.symbol s), n) := by
  simp only [Bool.or_eq_false_iff, decide_eq_false_iff_not] at h
  obtain ⟨⟨⟨⟨h0, hw⟩, hd⟩, hq⟩, hp⟩ := h
  have h1 : ¬(c = '/' ∧ cs.head? = some '/') := fun h => (hs h.1).1 h.2
  have h2 : ¬(c = '/' ∧ cs.head? = some '*') := fun h => (hs h.1).2 h.2
  simp only [pieceAt, h0, hw, hd, hq, hp, h1, h2, hcut, Bool.false_eq_true, if_false]

theorem symbol_whole_of {s : Symbol} (c : Char) (cs : List Char) (ht : s.text.toList = c :: cs)
    (h : (Text.isBlank c || isWordStart c || c.isDigit || c = '"' || c = '\'' || c = '/') = false)
    (hcut : ∀ b rest, b ≠ '=' → b ≠ '>' → b ≠ ':' → symbolAt c (cs ++ b :: rest) = some (s, cs.length)) :
    (symbol s).Whole := by
  rw [Bool.or_eq_false_iff, decide_eq_false_iff_not] at h
  refine ⟨c, cs, ht, fun b rest hb => pieceAt_symbol h.1 (fun hs => absurd hs h.2) (hcut b rest ?_ ?_ ?_)⟩
  all_goals exact blank_ne hb (by decide) (by decide)

theorem symbol_whole : ∀ s : Symbol, (symbol s).Whole
  | .plus => symbol_whole_of '+' [] (by decide) (by decide) (fun _ _ _ _ _ => rfl)
  | .minus => symbol_whole_of '-' [] (by decide) (by decide) (fun b rest _ h _ => by simp [symbolAt, h])
  | .star => symbol_whole_of '*' [] (by decide) (by decide) (fun _ _ _ _ _ => rfl)
  | .percent => symbol_whole_of '%' [] (by decide) (by decide) (fun _ _ _ _ _ => rfl)
  | .less => symbol_whole_of '<' [] (by decide) (by decide) (fun b rest h _ _ => by simp [symbolAt, h])
  | .lessEq => symbol_whole_of '<' ['='] (by decide) (by decide) (fun _ _ _ _ _ => rfl)
  | .greater => symbol_whole_of '>' [] (by decide) (by decide) (fun b rest h _ _ => by simp [symbolAt, h])
  | .greaterEq => symbol_whole_of '>' ['='] (by decide) (by decide) (fun _ _ _ _ _ => rfl)
  | .equalEqual => symbol_whole_of '=' ['='] (by decide) (by decide) (fun _ _ _ _ _ => rfl)
  | .notEqual => symbol_whole_of '!' ['='] (by decide) (by decide) (fun _ _ _ _ _ => rfl)
  | .equal => symbol_whole_of '=' [] (by decide) (by decide) (fun b rest h _ _ => by simp [symbolAt, h])
  | .arrow => symbol_whole_of '-' ['>'] (by decide) (by decide) (fun _ _ _ _ _ => rfl)
  | .colon => symbol_whole_of ':' [] (by decide) (by decide) (fun b rest _ _ h => by simp [symbolAt, h])
  | .doubleColon => symbol_whole_of ':' [':'] (by decide) (by decide) (fun _ _ _ _ _ => rfl)
  | .semicolon => symbol_whole_of ';' [] (by decide) (by decide) (fun _ _ _ _ _ => rfl)
  | .comma => symbol_whole_of ',' [] (by decide) (by decide) (fun _ _ _ _ _ => rfl)
  | .dot => symbol_whole_of '.' [] (by decide) (by decide) (fun _ _ _ _ _ => rfl)
  | .leftParen => symbol_whole_of '(' [] (by decide) (by decide) (fun _ _ _ _ _ => rfl)
  | .rightParen => symbol_whole_of ')' [] (by decide) (by decide) (fun _ _ _ _ _ => rfl)
  | .leftBracket => symbol_whole_of '[' [] (by decide) (by decide) (fun _ _ _ _ _ => rfl)
  | .rightBracket => symbol_whole_of ']' [] (by decide) (by decide) (fun _ _ _ _ _ => rfl)
  | .slash => by
    refine ⟨'/', [], by decide, fun b rest hb => pieceAt_symbol (by decide) (fun _ => ?_) rfl⟩
    have h1 : b ≠ '/' := blank_ne hb (by decide) (by decide)
    have h2 : b ≠ '*' := blank_ne hb (by decide) (by decide)
    simp [h1, h2]

end Lexeme

end ObjectAction
