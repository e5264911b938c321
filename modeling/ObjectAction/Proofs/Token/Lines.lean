/-
Texts and line ends. A line end behind a text adds no token and no error. With more text behind it, what is found in
both texts is what is found in each of them, and everything of the second one stands as many bytes and lines later
as the first one has.

Main statement: `tokenize_concat`. It asks that no comment of the first text is left open, which would hide the second
one, and that the first text does not end with an `end`, which could close with a word of the second one.
-/
import ObjectAction.Proofs.Body.Concatenation

namespace ObjectAction

open Text (Mark Shift)

/-- An error moves with the characters that it is about. -/
def LexicalError.moved (d : Shift) (e : LexicalError) : LexicalError := ⟨e.flaw, e.start.moved d⟩

namespace Token

/-! ## A line end behind a text -/

/-- A line end closes no comment. -/
theorem comment_open_lineEnd {content : List Char} (h : ¬ ['*', '/'] <:+: content) :
    ¬ ['*', '/'] <:+: content ++ ['\n'] := by
  rw [List.infix_concat_iff]
  rintro (hsuffix | hinfix)
  · have hlast := hsuffix.getLast (by simp)
    simp at hlast
  · exact h hinfix

/-- A comment that is left open takes the line end with it. -/
theorem pieces_unterminated {c : Char} {cs : List Char} (h : (pieceAt c cs).1 = .flaw .unterminatedComment) :
    pieces (c :: cs) = [⟨.flaw .unterminatedComment, c :: cs⟩] ∧
      pieces (c :: (cs ++ ['\n'])) = [⟨.flaw .unterminatedComment, c :: (cs ++ ['\n'])⟩] := by
  have hfits := fits_pieceAt c cs
  have hopened : ∀ content : List Char, ¬ ['*', '/'] <:+: content →
      pieceAt '/' ('*' :: content) = (.flaw .unterminatedComment, content.length + 1) := by
    intro content hopen
    have hslash : Text.isBlank '/' = false := by decide
    simp [pieceAt, hslash, commentLength_eq_none_iff.mpr hopen]
  rw [h] at hfits
  rcases hfits with ⟨kind, hkind, -⟩ | hgap
  · cases hkind
  · generalize htext : c :: cs.take (pieceAt c cs).2 = text at hgap
    cases hgap with
    | @unterminatedComment content hrest hopen =>
      -- nothing is left behind the comment, so it is the whole text
      obtain ⟨rfl, htake⟩ := List.cons.inj htext
      have hall : cs = '*' :: content := by
        rw [← List.take_append_drop (pieceAt '/' cs).2 cs, hrest, List.append_nil, htake]
      subst hall
      constructor
      · rw [pieces, hopened content hopen]
        simp [pieces]
      · rw [List.cons_append, pieces, hopened _ (comment_open_lineEnd hopen)]
        simp [pieces]

theorem tokensAt_lineEnd (x : List Char) (m : Mark) : tokensAt m (pieces (x ++ ['\n'])) = tokensAt m (pieces x) := by
  fun_induction pieces x generalizing m with
  | case1 =>
    have hblank : Text.isBlank '\n' = true := by decide
    exact tokensAt_blanks (by simpa using hblank) m
  | case2 c cs ih =>
    by_cases hclosed : (pieceAt c cs).1 = .flaw .unterminatedComment
    · obtain ⟨hpieces, hpieces'⟩ := pieces_unterminated hclosed
      rw [← pieces, List.cons_append, hpieces, hpieces']
      rfl
    · have hle := pieceAt_length_le c cs
      rw [List.cons_append, pieces, pieceAt_seam c cs [] hclosed (.inl rfl), List.take_append_of_le_length hle,
        drop_seam hle, tokensAt_cons, tokensAt_cons, ih]

/-- The tokens of a text with a line end behind it are those of the text, and only the end of input moves. -/
theorem tokens_lineEnd (text : String) : (tokenize (text ++ "\n")).tokens =
    (tokenize text).tokens.dropLast ++ [atEnd (Mark.start.past (text ++ "\n").toList)] := by
  have hline : (text ++ "\n").toList = text.toList ++ ['\n'] := by simp
  rw [tokens_tokenize, tokens_tokenize, List.dropLast_concat, hline, tokensAt_lineEnd]

/-! ## Two texts with a line end between them -/

theorem errorsAt_append (m : Mark) (ps qs : List Piece) :
    errorsAt m (ps ++ qs) = errorsAt m ps ++ errorsAt (m.past (ps.flatMap Piece.text)) qs := by
  induction ps generalizing m with
  | nil => rfl
  | cons p ps ih =>
    rw [List.cons_append, errorsAt_cons, errorsAt_cons, ih, List.flatMap_cons, Mark.past_append, List.append_assoc]

theorem errorsAt_moved (d : Shift) (m : Mark) (ps : List Piece) :
    errorsAt (m.moved d) ps = (errorsAt m ps).map (LexicalError.moved d) := by
  induction ps generalizing m with
  | nil => rfl
  | cons p ps ih =>
    rw [errorsAt_cons, errorsAt_cons, List.map_append, Mark.moved_past, ih]
    congr 1
    unfold Piece.errorAt
    cases p.kind <;> rfl

/-- The errors of both texts, the second one's behind the line end. -/
theorem errorsAt_seam {x y : List Char} {m : Mark} (hclosed : ∀ p ∈ pieces x, p.kind ≠ .flaw .unterminatedComment)
    (hopen : y = [] ∨ NoOpenEnd (tokensAt m (pieces x))) :
    errorsAt m (pieces (x ++ '\n' :: y)) = errorsAt m (pieces x) ++ errorsAt (m.past (x ++ ['\n'])) (pieces y) := by
  rw [pieces_seam hclosed hopen, errorsAt_append, flatMap_pieces, Lexeme.pieces_blank (by decide), errorsAt_cons,
    Mark.past_append]
  rfl

/-- What is found in two texts with a line end between them is found in one or the other. The tokens of the first
text stay, without its end of input, and so do its errors. Those of the second text follow, moved by the bytes and
lines of the first text and of the line end, in the same columns. -/
theorem tokenize_concat {a b : String} (hclosed : ∀ e ∈ (tokenize a).errors, e.flaw ≠ .unterminatedComment)
    (hopen : ∀ t ∈ (tokenize a).tokens.dropLast.getLast?, t.kind ≠ .keyword .«end») :
    (tokenize (a ++ "\n" ++ b)).tokens = (tokenize a).tokens.dropLast ++
      (tokenize b).tokens.map (Token.moved ⟨a.utf8ByteSize + 1, a.toList.count '\n' + 1⟩) ∧
    (tokenize (a ++ "\n" ++ b)).errors = (tokenize a).errors ++
      (tokenize b).errors.map (LexicalError.moved ⟨a.utf8ByteSize + 1, a.toList.count '\n' + 1⟩) := by
  have hpieces := kind_ne_of_errors hclosed
  have htext : (a ++ "\n" ++ b).toList = a.toList ++ '\n' :: b.toList := by simp
  rw [tokens_tokenize, List.dropLast_concat] at hopen
  have hstart := Mark.start_past_line a
  rw [Shift.behind_line] at hstart
  constructor
  · -- the end of input of the second text moves as its tokens do
    have hend : Mark.start.past (a.toList ++ '\n' :: b.toList) =
        (Mark.start.past b.toList).moved ⟨a.utf8ByteSize + 1, a.toList.count '\n' + 1⟩ := by
      rw [← Mark.moved_past, ← hstart, ← Mark.past_append, List.append_assoc]
      rfl
    rw [tokens_tokenize, tokens_tokenize, tokens_tokenize, List.dropLast_concat, htext,
      tokensAt_seam hpieces (.inr hopen), hstart, tokensAt_moved, hend, List.map_append, List.append_assoc]
    rfl
  · show errorsOfPieces _ _ = errorsOfPieces _ _ ++ (errorsOfPieces _ _).map _
    rw [errorsOfPieces_eq, errorsOfPieces_eq, errorsOfPieces_eq, htext, errorsAt_seam hpieces (.inr hopen), hstart,
      errorsAt_moved]

/-- A phrase that is left open, a number that is too large, and a symbol that could begin a comment. -/
def brokenText : String := "x = 'ü;\n99999999999999999999 /"

/-- The same symbol again, an `end` with its word on the next line, and a stray character. -/
def closingText : String := "/ end\nIF; §"

theorem tokenize_concat_brokenText :
    (∀ e ∈ (tokenize brokenText).errors, e.flaw ≠ .unterminatedComment) ∧
    (∀ t ∈ (tokenize brokenText).tokens.dropLast.getLast?, t.kind ≠ .keyword .«end») ∧
    (tokenize (brokenText ++ "\n" ++ closingText)).tokens = (tokenize brokenText).tokens.dropLast ++
      (tokenize closingText).tokens.map (Token.moved ⟨32, 2⟩) ∧
    (tokenize (brokenText ++ "\n" ++ closingText)).errors = (tokenize brokenText).errors ++
      (tokenize closingText).errors.map (LexicalError.moved ⟨32, 2⟩) ∧
    (tokenize (brokenText ++ "\n" ++ closingText)).errors.map LexicalError.start =
      [⟨4, 1, 4⟩, ⟨5, 1, 5⟩, ⟨9, 2, 0⟩, ⟨42, 4, 4⟩] := by
  have hclosed : ∀ e ∈ (tokenize brokenText).errors, e.flaw ≠ .unterminatedComment := by decide +kernel
  have hlast : (tokenize brokenText).tokens.dropLast.getLast?.all
      (fun t => !Parser.isKeyword .«end» t.kind) = true := by
    decide +kernel
  have hopen : ∀ t ∈ (tokenize brokenText).tokens.dropLast.getLast?, t.kind ≠ .keyword .«end» := by
    intro t ht hkind
    rw [Option.mem_def.mp ht] at hlast
    simp [hkind, Parser.isKeyword] at hlast
  have hshift : (⟨brokenText.utf8ByteSize + 1, brokenText.toList.count '\n' + 1⟩ : Shift) = ⟨32, 2⟩ := by
    decide +kernel
  obtain ⟨htokens, herrors⟩ := tokenize_concat (b := closingText) hclosed hopen
  rw [hshift] at htokens herrors
  refine ⟨hclosed, hopen, htokens, herrors, ?_⟩
  rw [herrors]
  decide +kernel

end Token

end ObjectAction
