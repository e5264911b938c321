/-
Texts put together with a line end between them. A piece of the first text is the same with more text behind the
line end, unless it looks across it: a block comment that is never closed does, and so does `end` with nothing but
blanks behind it, which could become a closing keyword.

Main statement: without these two, the pieces of both texts are those of the first one and then those of the
second (`pieces_seam`).
-/
import ObjectAction.Proofs.Token.Cut

namespace ObjectAction.Token

open Text (Mark isBlank)

/-! ## Runs at a line end -/

section

variable {p : Char → Bool} (hp : p '\n' = false) (cs y : List Char)

include hp

theorem takeWhile_seam : (cs ++ '\n' :: y).takeWhile p = cs.takeWhile p := by
  induction cs with
  | nil => simp [hp]
  | cons c cs ih =>
    rw [List.cons_append, List.takeWhile_cons, List.takeWhile_cons, ih]

theorem dropWhile_seam : (cs ++ '\n' :: y).dropWhile p = cs.dropWhile p ++ '\n' :: y := by
  induction cs with
  | nil => simp [hp]
  | cons c cs ih =>
    rw [List.cons_append, List.dropWhile_cons, List.dropWhile_cons, ih]
    split <;> rfl

end

theorem length_takeWhile_le (p : Char → Bool) (cs : List Char) : (cs.takeWhile p).length ≤ cs.length :=
  (List.takeWhile_sublist p).length_le

theorem drop_seam {n : Nat} {cs : List Char} (h : n ≤ cs.length) (y : List Char) :
    (cs ++ '\n' :: y).drop n = cs.drop n ++ '\n' :: y :=
  List.drop_append_of_le_length h

/-! ## Numbers -/

theorem digit_seam (cs y : List Char) : (cs ++ '\n' :: y).takeWhile Char.isDigit = cs.takeWhile Char.isDigit :=
  takeWhile_seam (by decide) cs y

theorem fractionLength_seam (cs y : List Char) : fractionLength (cs ++ '\n' :: y) = fractionLength cs := by
  cases cs with
  | nil => rfl
  | cons c cs =>
    by_cases hc : c = '.'
    · subst hc
      simp only [List.cons_append, fractionLength, digit_seam]
    · simp [fractionLength, hc]

theorem signedDigitsLength_seam (cs y : List Char) :
    signedDigitsLength (cs ++ '\n' :: y) = signedDigitsLength cs := by
  cases cs with
  | nil => rfl
  | cons c cs =>
    by_cases hplus : c = '+'
    · subst hplus
      simp only [List.cons_append, signedDigitsLength, digit_seam]
    · by_cases hminus : c = '-'
      · subst hminus
        simp only [List.cons_append, signedDigitsLength, digit_seam]
      · have h := digit_seam (c :: cs) y
        simp only [List.cons_append] at h
        simp [signedDigitsLength, hplus, hminus, h]

theorem exponentLength_seam (cs y : List Char) : exponentLength (cs ++ '\n' :: y) = exponentLength cs := by
  cases cs with
  | nil => exact (Lexeme.number_stop (by decide) y).2
  | cons c cs => simp only [List.cons_append, exponentLength, signedDigitsLength_seam]

theorem fractionLength_le (cs : List Char) : fractionLength cs ≤ cs.length := by
  unfold fractionLength
  split
  · rename_i cs
    have h := length_takeWhile_le Char.isDigit cs
    split
    · omega
    · simp only [List.length_cons]
      omega
  · omega

theorem signedDigitsLength_le (cs : List Char) : signedDigitsLength cs ≤ cs.length := by
  have hrun : ∀ ds : List Char,
      (if ds.takeWhile Char.isDigit = [] then 0 else (ds.takeWhile Char.isDigit).length + 1) ≤ ds.length + 1 := by
    intro ds
    have h := length_takeWhile_le Char.isDigit ds
    split <;> omega
  unfold signedDigitsLength
  split
  · exact hrun _
  · exact hrun _
  · exact length_takeWhile_le _ _

theorem exponentLength_le (cs : List Char) : exponentLength cs ≤ cs.length := by
  unfold exponentLength
  split
  · rename_i c cs
    have h := signedDigitsLength_le cs
    simp only [List.length_cons]
    split <;> omega
  · exact le_refl _

/-- The three parts of a number end before the text does. -/
theorem numberLength_le (cs : List Char) :
    let whole := (cs.takeWhile Char.isDigit).length
    let fraction := fractionLength (cs.drop whole)
    whole + fraction + exponentLength (cs.drop (whole + fraction)) ≤ cs.length := by
  intro whole fraction
  have hwhole : whole ≤ cs.length := length_takeWhile_le _ _
  have hfraction : fraction ≤ cs.length - whole := by
    have h := fractionLength_le (cs.drop whole)
    rwa [List.length_drop] at h
  have hexponent := exponentLength_le (cs.drop (whole + fraction))
  rw [List.length_drop] at hexponent
  omega

theorem number_seam (c : Char) (cs y : List Char) : number c (cs ++ '\n' :: y) = number c cs := by
  have hlength := numberLength_le cs
  unfold number
  dsimp only at hlength ⊢
  rw [digit_seam, drop_seam (by omega), fractionLength_seam, drop_seam (by omega), exponentLength_seam,
    List.take_append_of_le_length hlength]

theorem number_length_le (c : Char) (cs : List Char) : (number c cs).2 ≤ cs.length := by
  have hlength := numberLength_le cs
  unfold number
  dsimp only at hlength ⊢
  split <;> exact hlength

/-! ## Comments and quotes -/

theorem commentLength_seam {cs : List Char} {n : Nat} (h : commentLength cs = some n) (more : List Char) :
    commentLength (cs ++ more) = some n ∧ n ≤ cs.length := by
  obtain ⟨content, rest, rfl, rfl, hopen⟩ := commentLength_eq_some h
  refine ⟨?_, by simp⟩
  rw [List.append_assoc]
  exact commentLength_append hopen (rest ++ more)

theorem quoted_seam {q : Char} (hq : q ≠ '\n') (cs y : List Char) : quoted q (cs ++ '\n' :: y) = quoted q cs := by
  unfold quoted
  rw [takeWhile_seam (by simp)]
  dsimp only
  have hle := length_takeWhile_le (fun c => decide (c ≠ q ∧ c ≠ '\n')) cs
  rw [drop_seam hle]
  cases hrest : cs.drop (cs.takeWhile fun c => decide (c ≠ q ∧ c ≠ '\n')).length with
  | nil => simp [Ne.symm hq]
  | cons c rest => rfl

theorem quoted_length_lt {q : Char} {cs content : List Char} (h : quoted q cs = some content) :
    content.length < cs.length := by
  unfold quoted at h
  dsimp only at h
  split at h
  · rename_i hhead
    cases h
    by_contra hle
    rw [List.drop_eq_nil_of_le (by omega)] at hhead
    cases hhead
  · cases h

/-! ## Words -/

/-- What closes an `end` is found before the line end, if anything but blanks stands there. -/
theorem closingAfter_seam {rest : List Char} (hrest : ¬ ∀ c ∈ rest, isBlank c = true) (y : List Char) :
    closingAfter (rest ++ '\n' :: y) = closingAfter rest := by
  have htake : (rest ++ '\n' :: y).takeWhile isBlank = rest.takeWhile isBlank := by
    rw [List.takeWhile_append, if_neg]
    intro hlength
    apply hrest
    have hall := List.takeWhile_eq_self_iff.mp ((List.takeWhile_prefix isBlank).eq_of_length hlength)
    exact hall
  have hdrop : (rest ++ '\n' :: y).dropWhile isBlank = rest.dropWhile isBlank ++ '\n' :: y := by
    rw [List.dropWhile_append, if_neg]
    intro hnil
    apply hrest
    exact List.dropWhile_eq_nil_iff.mp (List.isEmpty_iff.mp hnil)
  unfold closingAfter
  rw [htake, hdrop, takeWhile_seam (by decide)]

theorem closingAfter_blanks {rest : List Char} (hrest : ∀ c ∈ rest, isBlank c = true) : closingAfter rest = none := by
  have hdrop : rest.dropWhile isBlank = [] := List.dropWhile_eq_nil_iff.mpr hrest
  unfold closingAfter
  rw [hdrop]
  dsimp only
  split
  · rfl
  · rfl

theorem closingAfter_length_le {rest : List Char} {k : Keyword} {n : Nat} (h : closingAfter rest = some (k, n)) :
    n ≤ rest.length := by
  unfold closingAfter at h
  dsimp only at h
  split at h
  · cases h
  · obtain ⟨k', -, heq⟩ := Option.map_eq_some_iff.mp h
    obtain ⟨-, rfl⟩ := Prod.mk.inj heq
    have hword := length_takeWhile_le isWordChar (rest.dropWhile isBlank)
    have hlength := congrArg List.length (List.takeWhile_append_dropWhile (p := isBlank) (l := rest))
    rw [List.length_append] at hlength
    omega

theorem colons_seam (rest y : List Char) :
    [':', ':'].isPrefixOf (rest ++ '\n' :: y) = [':', ':'].isPrefixOf rest := by
  match rest with
  | [] => simp [List.isPrefixOf]
  | [c] => simp [List.isPrefixOf]
  | c :: c' :: rest => simp [List.isPrefixOf]

/-- Whether the piece is an `end` with nothing but blanks behind it. -/
def EndsOpen (c : Char) (cs : List Char) : Prop :=
  (pieceAt c cs).1 = .token (.keyword .«end») ∧ ∀ b ∈ cs.drop (pieceAt c cs).2, isBlank b = true

theorem word_seam {c : Char} (hc : isWordStart c = true) (cs y : List Char) (hopen : y = [] ∨ ¬ EndsOpen c cs) :
    word c (cs ++ '\n' :: y) = word c cs := by
  have hpiece := Lexeme.pieceAt_word hc cs
  have hdropped := drop_takeWhile isWordChar cs
  unfold EndsOpen at hopen
  rw [hpiece] at hopen
  unfold word at hopen ⊢
  rw [takeWhile_seam (by decide), dropWhile_seam (by decide)]
  dsimp only at hopen ⊢
  rw [colons_seam]
  split
  · rfl
  · rename_i hcolons
    rw [if_neg hcolons] at hopen
    cases hword : Keyword.ofWord? (c :: cs.takeWhile isWordChar) with
    | none => rfl
    | some k =>
      by_cases hend : k = .«end»
      · -- only `end` looks further, for the word that it closes
        subst hend
        rw [hword] at hopen
        dsimp only at hopen ⊢
        by_cases hblank : ∀ b ∈ cs.dropWhile isWordChar, isBlank b = true
        · have hnone := closingAfter_blanks hblank
          rw [hnone] at hopen ⊢
          dsimp only at hopen
          rw [hdropped] at hopen
          rcases hopen with rfl | hopen
          · -- with no text behind the line end, there are still only blanks
            have hblank' : ∀ b ∈ cs.dropWhile isWordChar ++ ['\n'], isBlank b = true := by
              intro b hb
              rcases List.mem_append.mp hb with hb | hb
              · exact hblank b hb
              · rw [List.mem_singleton.mp hb]
                decide
            rw [closingAfter_blanks hblank']
          · exact absurd ⟨rfl, hblank⟩ hopen
        · rw [closingAfter_seam hblank]
      · cases k <;> first | rfl | exact absurd rfl hend

theorem word_length_le (c : Char) (cs : List Char) : (word c cs).2 ≤ cs.length := by
  have htail := length_takeWhile_le isWordChar cs
  have hlength := congrArg List.length (List.takeWhile_append_dropWhile (p := isWordChar) (l := cs))
  rw [List.length_append] at hlength
  unfold word
  dsimp only
  split
  · rename_i hcolons
    have hprefix := (List.isPrefixOf_iff_prefix.mp hcolons).length_le
    simp only [List.length_cons, List.length_nil] at hprefix ⊢
    omega
  · split
    · split
      · rename_i k more hclosing
        have hle := closingAfter_length_le hclosing
        dsimp only
        omega
      · exact htail
    · exact htail
    · exact htail

/-! ## Pieces -/

theorem symbolAt_seam (c : Char) (cs y : List Char) : symbolAt c (cs ++ '\n' :: y) = symbolAt c cs := by
  cases cs with
  | cons d cs => rfl
  | nil =>
    unfold symbolAt
    simp only [List.nil_append, List.head?_cons, List.head?_nil]
    split <;> simp_all

theorem symbolAt_length_le {c : Char} {cs : List Char} {s : Symbol} {n : Nat} (h : symbolAt c cs = some (s, n)) :
    n ≤ cs.length := by
  cases cs with
  | cons d cs =>
    have hn : n ≤ 1 := by
      unfold symbolAt at h
      split at h <;> cases h <;> omega
    simp only [List.length_cons]
    omega
  | nil =>
    unfold symbolAt at h
    simp only [List.head?_nil] at h
    split at h <;> cases h <;> first | rfl | contradiction

theorem head?_seam {d : Char} (hd : d ≠ '\n') (cs y : List Char) :
    (cs ++ '\n' :: y).head? = some d ↔ cs.head? = some d := by
  cases cs with
  | nil => simp [Ne.symm hd]
  | cons c cs => rfl

theorem quotation_seam {q : Char} (hq : q ≠ '\n') (kind : String → Kind) (flaw : Flaw) (cs y : List Char) :
    quotation q kind flaw (cs ++ '\n' :: y) = quotation q kind flaw cs := by
  unfold quotation
  rw [quoted_seam hq]

theorem quotation_length_le (q : Char) (kind : String → Kind) (flaw : Flaw) (cs : List Char) :
    (quotation q kind flaw cs).2 ≤ cs.length := by
  unfold quotation
  split
  · rename_i content hquoted
    exact quoted_length_lt hquoted
  · exact Nat.zero_le _

theorem pieceAt_length_le (c : Char) (cs : List Char) : (pieceAt c cs).2 ≤ cs.length := by
  unfold pieceAt
  split_ifs with hblank hline hblock hstring hphrase hword hdigit
  · exact Nat.zero_le _
  · exact length_takeWhile_le _ _
  · have hcs : cs ≠ [] := by
      rintro rfl
      cases hblock.2
    have hpos := List.length_pos_iff.mpr hcs
    split
    · rename_i n hn
      have hle := (commentLength_seam hn []).2
      rw [List.length_drop] at hle
      dsimp only
      omega
    · exact le_refl _
  · exact quotation_length_le _ _ _ _
  · exact quotation_length_le _ _ _ _
  · exact word_length_le _ _
  · exact number_length_le _ _
  · split
    · rename_i s n hsymbol
      exact symbolAt_length_le hsymbol
    · exact Nat.zero_le _

/-- A piece does not look across the line end behind it. -/
theorem pieceAt_seam (c : Char) (cs y : List Char) (hclosed : (pieceAt c cs).1 ≠ .flaw .unterminatedComment)
    (hopen : y = [] ∨ ¬ EndsOpen c cs) : pieceAt c (cs ++ '\n' :: y) = pieceAt c cs := by
  by_cases hword : isWordStart c = true
  · rw [Lexeme.pieceAt_word hword, Lexeme.pieceAt_word hword]
    exact word_seam hword cs y hopen
  unfold pieceAt at hclosed ⊢
  simp only [head?_seam (show '/' ≠ '\n' by decide), head?_seam (show '*' ≠ '\n' by decide), if_neg hword]
    at hclosed ⊢
  split_ifs with hblank hline hblock hstring hphrase hdigit
  · rfl
  · rw [takeWhile_seam (by simp)]
  · rw [if_neg hblank, if_neg hline, if_pos hblock] at hclosed
    have hcs : 1 ≤ cs.length := by
      cases cs with
      | nil => cases hblock.2
      | cons d cs => simp
    rw [drop_seam hcs]
    cases hn : commentLength (cs.drop 1) with
    | none => exact absurd (by rw [hn]) hclosed -- the comment would go on behind the line end
    | some n => rw [(commentLength_seam hn _).1]
  · exact quotation_seam (by decide) _ _ cs y
  · exact quotation_seam (by decide) _ _ cs y
  · exact number_seam c cs y
  · rw [symbolAt_seam]

/-! ## Texts -/

theorem tokensAt_blanks {cs : List Char} (h : ∀ c ∈ cs, isBlank c = true) (m : Mark) :
    tokensAt m (pieces cs) = [] := by
  induction cs generalizing m with
  | nil =>
    rw [pieces]
    rfl
  | cons c cs ih =>
    rw [Lexeme.pieces_blank (h c List.mem_cons_self), tokensAt_cons, ih fun d hd => h d (List.mem_cons_of_mem c hd)]
    rfl

/-- The last token of a text, if there is one, is no `end`. -/
def NoOpenEnd (ts : List Token) : Prop := ∀ t ∈ ts.getLast?, t.kind ≠ .keyword .«end»

theorem NoOpenEnd.of_append {before ts : List Token} (h : NoOpenEnd (before ++ ts)) : NoOpenEnd ts := by
  intro t ht
  apply h t
  rw [List.getLast?_append, Option.mem_def.mp ht]
  rfl

theorem pieces_seam {x y : List Char} {m : Mark} (hclosed : ∀ p ∈ pieces x, p.kind ≠ .flaw .unterminatedComment)
    (hopen : y = [] ∨ NoOpenEnd (tokensAt m (pieces x))) :
    pieces (x ++ '\n' :: y) = pieces x ++ pieces ('\n' :: y) := by
  fun_induction pieces x generalizing m with
  | case1 => rfl
  | case2 c cs ih =>
    have hsame : pieceAt c (cs ++ '\n' :: y) = pieceAt c cs := by
      apply pieceAt_seam c cs y (hclosed _ List.mem_cons_self)
      refine hopen.imp_right fun hlast hends => ?_
      -- Nothing but blanks comes behind that `end`, so it would be the last token.
      rw [tokensAt_cons, tokensAt_blanks hends.2, Piece.tokenAt, hends.1] at hlast
      exact hlast _ rfl rfl
    have hle := pieceAt_length_le c cs
    rw [List.cons_append, pieces, hsame, List.take_append_of_le_length hle, drop_seam hle, List.cons_append]
    congr 1
    rw [tokensAt_cons] at hopen
    exact ih (fun p hp => hclosed p (List.mem_cons_of_mem _ hp)) (hopen.imp_right NoOpenEnd.of_append)

theorem tokensAt_append (m : Mark) (ps qs : List Piece) :
    tokensAt m (ps ++ qs) = tokensAt m ps ++ tokensAt (m.past (ps.flatMap Piece.text)) qs := by
  induction ps generalizing m with
  | nil => rfl
  | cons p ps ih =>
    rw [List.cons_append, tokensAt_cons, tokensAt_cons, ih, List.flatMap_cons, Mark.past_append, List.append_assoc]

/-- The tokens of both texts, the second one's behind the line end. -/
theorem tokensAt_seam {x y : List Char} {m : Mark} (hclosed : ∀ p ∈ pieces x, p.kind ≠ .flaw .unterminatedComment)
    (hopen : y = [] ∨ NoOpenEnd (tokensAt m (pieces x))) :
    tokensAt m (pieces (x ++ '\n' :: y)) = tokensAt m (pieces x) ++ tokensAt (m.past (x ++ ['\n'])) (pieces y) := by
  rw [pieces_seam hclosed hopen, tokensAt_append, flatMap_pieces, Lexeme.pieces_blank (by decide), tokensAt_cons,
    Mark.past_append]
  rfl

/-- Every flaw is reported. -/
theorem exists_error_of_flaw {m : Mark} {ps : List Piece} {p : Piece} {f : Flaw} (hp : p ∈ ps)
    (hkind : p.kind = .flaw f) : ∃ e ∈ errorsAt m ps, e.flaw = f := by
  induction ps generalizing m with
  | nil => cases hp
  | cons q ps ih =>
    rw [errorsAt_cons]
    rcases List.mem_cons.mp hp with rfl | hp
    · refine ⟨⟨f, m⟩, List.mem_append_left _ ?_, rfl⟩
      simp [Piece.errorAt, hkind]
    · obtain ⟨e, he, hflaw⟩ := ih hp
      exact ⟨e, List.mem_append_right _ he, hflaw⟩

theorem kind_ne_of_errors {text : String} {f : Flaw} (h : ∀ e ∈ (tokenize text).errors, e.flaw ≠ f) :
    ∀ p ∈ pieces text.toList, p.kind ≠ .flaw f := by
  intro p hp hkind
  obtain ⟨e, he, hflaw⟩ := exists_error_of_flaw (m := .start) hp hkind
  rw [← errorsOfPieces_eq] at he
  exact h e he hflaw

end ObjectAction.Token
