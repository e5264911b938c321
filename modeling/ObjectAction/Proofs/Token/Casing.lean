/-
Letter case. To cut a text, a capital counts as much as the small letter of its name: nothing but the
names and contents of tokens tells a text from the same text in lower case (`tokenize_toLower`).
-/
import ObjectAction.Proofs.Token.Spacing

namespace ObjectAction

open Text (Mark)

namespace Token

/-! ## The same in lower case -/

/-- Only what stands in the text for itself has a letter case. -/
def Kind.toLower : Kind → Kind
  | identifier name => identifier name.toLower
  | qualifier name => qualifier name.toLower
  | string content => string content.toLower
  | phrase content => phrase content.toLower
  | keyword k => keyword k
  | integer n => integer n
  | real x => real x
  | symbol s => symbol s
  | endOfInput => endOfInput

def PieceKind.toLower : PieceKind → PieceKind
  | token k => token k.toLower
  | blank => blank
  | lineComment => lineComment
  | blockComment => blockComment
  | flaw f => flaw f

def Piece.toLower (p : Piece) : Piece := ⟨p.kind.toLower, p.text.map Char.toLower⟩

end Token

/-- The token in lower case, at its place. -/
def Token.toLower (t : Token) : Token := ⟨t.kind.toLower, t.lexeme.toLower, t.start, t.stop⟩

namespace Token

theorem toList_toLower (s : String) : s.toLower.toList = s.toList.map Char.toLower := String.toList_map ..

theorem toLower_ofList (cs : List Char) : (String.ofList cs).toLower = String.ofList (cs.map Char.toLower) := by
  apply String.toList_injective
  rw [toList_toLower, String.toList_ofList, String.toList_ofList]

/-! ## Characters -/

@[simp] theorem isBlank_toLower : ∀ c : Char, Text.isBlank c.toLower = Text.isBlank c :=
  apply_toLower (by decide)

@[simp] theorem isDigit_toLower : ∀ c : Char, c.toLower.isDigit = c.isDigit :=
  apply_toLower (by decide)

@[simp] theorem isAlpha_toLower : ∀ c : Char, c.toLower.isAlpha = c.isAlpha :=
  apply_toLower (by decide)

@[simp] theorem toLower_toLower : ∀ c : Char, c.toLower.toLower = c.toLower :=
  apply_toLower (by decide)

@[simp] theorem utf8Size_toLower : ∀ c : Char, c.toLower.utf8Size = c.utf8Size :=
  apply_toLower (by decide)

theorem toLower_eq_iff {c d : Char} (hd : d.isAlpha = false) : c.toLower = d ↔ c = d := by
  by_cases hc : c.isUpper = true
  · have halpha : c.isAlpha = true := Bool.or_eq_true_iff.mpr (.inl hc)
    constructor
    · rintro rfl
      rw [isAlpha_toLower, halpha] at hd
      cases hd
    · rintro rfl
      rw [halpha] at hd
      cases hd
  · rw [toLower_of_not_isUpper hc]

theorem toLower_of_isAlpha_eq_false {c : Char} (h : c.isAlpha = false) : c.toLower = c :=
  (toLower_eq_iff h).mpr rfl

theorem toLower_of_isDigit {c : Char} (h : c.isDigit = true) : c.toLower = c := by
  apply toLower_of_not_isUpper
  intro hc
  obtain ⟨n, hn, rfl⟩ := exists_capital hc
  have hcapitals : ∀ n < 26, (capital n).isDigit = false := by decide
  rw [hcapitals n hn] at h
  cases h

theorem map_toLower_of_isDigit {ds : List Char} (h : ∀ d ∈ ds, d.isDigit = true) : ds.map Char.toLower = ds := by
  rw [List.map_congr_left fun d hd => toLower_of_isDigit (h d hd), List.map_id']

theorem head?_toLower_eq_iff {cs : List Char} {d : Char} (hd : d.isAlpha = false) :
    (cs.map Char.toLower).head? = some d ↔ cs.head? = some d := by
  cases cs with
  | nil => rfl
  | cons c cs => simp [toLower_eq_iff hd]

theorem takeWhile_toLower {p : Char → Bool} (hp : ∀ c, p c.toLower = p c) (cs : List Char) :
    (cs.map Char.toLower).takeWhile p = (cs.takeWhile p).map Char.toLower := by
  rw [List.takeWhile_map, show p ∘ Char.toLower = p from funext hp]

theorem dropWhile_toLower {p : Char → Bool} (hp : ∀ c, p c.toLower = p c) (cs : List Char) :
    (cs.map Char.toLower).dropWhile p = (cs.dropWhile p).map Char.toLower := by
  rw [List.dropWhile_map, show p ∘ Char.toLower = p from funext hp]

@[simp] theorem takeWhile_isDigit_toLower (cs : List Char) :
    (cs.map Char.toLower).takeWhile Char.isDigit = cs.takeWhile Char.isDigit := by
  rw [takeWhile_toLower isDigit_toLower]
  exact map_toLower_of_isDigit fun d hd => List.mem_takeWhile_imp hd

@[simp] theorem past_toLower (m : Mark) (cs : List Char) : m.past (cs.map Char.toLower) = m.past cs := by
  have hafter : ∀ (n : Mark) (c : Char), n.after c.toLower = n.after c := by
    intro n c
    unfold Mark.after
    rw [utf8Size_toLower, if_congr (toLower_eq_iff (by decide)) rfl rfl]
  unfold Mark.past
  rw [List.foldl_map]
  simp only [hafter]

/-! ## Words -/

theorem map_toLower_map_toLower (cs : List Char) : (cs.map Char.toLower).map Char.toLower = cs.map Char.toLower := by
  rw [List.map_map]
  exact List.map_congr_left fun c _ => toLower_toLower c

@[simp] theorem ofWord?_toLower (cs : List Char) : Keyword.ofWord? (cs.map Char.toLower) = Keyword.ofWord? cs := by
  unfold Keyword.ofWord?
  rw [map_toLower_map_toLower]

@[simp] theorem closing?_toLower (cs : List Char) : Keyword.closing? (cs.map Char.toLower) = Keyword.closing? cs := by
  unfold Keyword.closing?
  rw [map_toLower_map_toLower]

theorem closingAfter_toLower (cs : List Char) : closingAfter (cs.map Char.toLower) = closingAfter cs := by
  unfold closingAfter
  rw [takeWhile_toLower isBlank_toLower, dropWhile_toLower isBlank_toLower, takeWhile_toLower isWordChar_toLower]
  simp

theorem qualifies_toLower (cs : List Char) :
    [':', ':'].isPrefixOf (cs.map Char.toLower) = [':', ':'].isPrefixOf cs := by
  have hcolon : ∀ c : Char, (':' == c.toLower) = (':' == c) := apply_toLower (by decide)
  match cs with
  | [] => rfl
  | [c] => simp [List.isPrefixOf]
  | c :: d :: cs => simp [List.isPrefixOf, hcolon]

theorem word_toLower (c : Char) (cs : List Char) :
    word c.toLower (cs.map Char.toLower) = ((word c cs).1.toLower, (word c cs).2) := by
  have hname : c.toLower :: (cs.takeWhile isWordChar).map Char.toLower =
      (c :: cs.takeWhile isWordChar).map Char.toLower := rfl
  unfold word
  dsimp only
  rw [takeWhile_toLower isWordChar_toLower, dropWhile_toLower isWordChar_toLower, hname, qualifies_toLower,
    ofWord?_toLower, closingAfter_toLower, List.length_map, ← toLower_ofList]
  by_cases hcolons : [':', ':'].isPrefixOf (cs.dropWhile isWordChar) = true
  · rw [if_pos hcolons, if_pos hcolons]
    rfl
  · rw [if_neg hcolons, if_neg hcolons]
    cases Keyword.ofWord? (c :: cs.takeWhile isWordChar) with
    | none => rfl
    | some k =>
      cases closingAfter (cs.dropWhile isWordChar) with
      | none => cases k <;> rfl
      | some p => cases k <;> rfl

/-! ## Numbers -/

theorem fractionLength_of_ne {c : Char} (h : c ≠ '.') (cs : List Char) : fractionLength (c :: cs) = 0 := by
  unfold fractionLength
  split
  · simp_all
  · rfl

theorem fractionLength_toLower (cs : List Char) : fractionLength (cs.map Char.toLower) = fractionLength cs := by
  cases cs with
  | nil => rfl
  | cons c cs =>
    rw [List.map_cons]
    by_cases hc : c = '.'
    · subst hc
      rw [toLower_of_isAlpha_eq_false (by decide)]
      simp [fractionLength]
    · rw [fractionLength_of_ne hc, fractionLength_of_ne (mt (toLower_eq_iff (by decide)).mp hc)]

/-- What may be a sign is no letter, so splitting it off does not depend on letter case. -/
theorem signed_toLower (cs : List Char) :
    Number.signed (cs.map Char.toLower) = ((Number.signed cs).1, (Number.signed cs).2.map Char.toLower) := by
  cases cs with
  | nil => rfl
  | cons c cs =>
    rw [List.map_cons]
    by_cases hminus : c = '-'
    · subst hminus
      rfl
    by_cases hplus : c = '+'
    · subst hplus
      rfl
    have hminus' : c.toLower ≠ '-' := mt (toLower_eq_iff (by decide)).mp hminus
    have hplus' : c.toLower ≠ '+' := mt (toLower_eq_iff (by decide)).mp hplus
    simp [Number.signed, hminus, hplus, hminus', hplus']

theorem signedDigitsLength_toLower (cs : List Char) :
    signedDigitsLength (cs.map Char.toLower) = signedDigitsLength cs := by
  cases cs with
  | nil => rfl
  | cons c cs =>
    rw [List.map_cons]
    by_cases hplus : c = '+'
    · subst hplus
      rw [toLower_of_isAlpha_eq_false (by decide)]
      simp [signedDigitsLength]
    by_cases hminus : c = '-'
    · subst hminus
      rw [toLower_of_isAlpha_eq_false (by decide)]
      simp [signedDigitsLength]
    have hplus' : c.toLower ≠ '+' := mt (toLower_eq_iff (by decide)).mp hplus
    have hminus' : c.toLower ≠ '-' := mt (toLower_eq_iff (by decide)).mp hminus
    have hdigits := takeWhile_isDigit_toLower (c :: cs)
    rw [List.map_cons] at hdigits
    simp [signedDigitsLength, hplus, hminus, hplus', hminus', hdigits]

theorem exponentLength_toLower (cs : List Char) : exponentLength (cs.map Char.toLower) = exponentLength cs := by
  cases cs with
  | nil => rfl
  | cons c cs =>
    rw [List.map_cons, exponentLength, exponentLength, signedDigitsLength_toLower, toLower_toLower]

theorem readExponent_toLower (cs : List Char) :
    Number.readExponent (cs.map Char.toLower) = Number.readExponent cs := by
  cases cs with
  | nil => rfl
  | cons c cs =>
    have hall : ∀ ds : List Char, (ds.map Char.toLower).all Char.isDigit = ds.all Char.isDigit := by
      intro ds
      rw [List.all_map]
      simp [Function.comp_def]
    rw [List.map_cons, Number.readExponent, Number.readExponent, signed_toLower, toLower_toLower]
    dsimp only
    rw [hall, List.isEmpty_map]
    by_cases hdigits : (Number.signed cs).2.all Char.isDigit = true
    · rw [map_toLower_of_isDigit (List.all_eq_true.mp hdigits)]
    · simp [hdigits]

theorem readMagnitude_toLower (cs : List Char) :
    Number.readMagnitude (cs.map Char.toLower) = Number.readMagnitude cs := by
  unfold Number.readMagnitude
  rw [takeWhile_isDigit_toLower, dropWhile_toLower isDigit_toLower]
  generalize cs.takeWhile Char.isDigit = whole
  cases cs.dropWhile Char.isDigit with
  | nil => rfl
  | cons c cs =>
    rw [List.map_cons]
    by_cases hc : c = '.'
    · subst hc
      rw [toLower_of_isAlpha_eq_false (by decide)]
      simp [dropWhile_toLower isDigit_toLower, readExponent_toLower]
    · have hc' : c.toLower ≠ '.' := mt (toLower_eq_iff (by decide)).mp hc
      have hexponent := readExponent_toLower (c :: cs)
      rw [List.map_cons] at hexponent
      simp [hc, hc', hexponent]

theorem isDigits_of_gap {rest text : List Char} {literal : String}
    (h : Gap rest (.flaw (.invalidNumber literal)) text) : IsDigits text := by
  generalize hkind : PieceKind.flaw (.invalidNumber literal) = kind at h
  cases h with
  | invalidNumber hds => exact hds
  | _ => cases hkind

/-- Letter case is lost on a number: what is no token of it is its digits. -/
theorem number_toLower {c : Char} (hc : c.isDigit = true) (cs : List Char) :
    number c (cs.map Char.toLower) = ((number c cs).1.toLower, (number c cs).2) := by
  have hfits := fits_number hc cs
  have hwhole := take_takeWhile Char.isDigit cs
  unfold number at hfits ⊢
  dsimp only at hfits ⊢
  rw [takeWhile_isDigit_toLower, ← List.map_drop, fractionLength_toLower, ← List.map_drop, exponentLength_toLower,
    ← List.map_take]
  generalize exponentLength _ = e at hfits ⊢
  generalize fractionLength _ = f at hfits ⊢
  generalize (cs.takeWhile Char.isDigit).length = w at hfits hwhole ⊢
  by_cases hzero : f + e = 0
  · have hdigits : (cs.take (w + f + e)).map Char.toLower = cs.take (w + f + e) := by
      rw [Nat.add_assoc, hzero, Nat.add_zero, hwhole]
      exact map_toLower_of_isDigit fun d hd => List.mem_takeWhile_imp hd
    rw [if_pos hzero, if_pos hzero, hdigits]
    cases Number.int64? (Number.ofDigits (c :: cs.take (w + f + e))) <;> rfl
  · have hread := readMagnitude_toLower (c :: cs.take (w + f + e))
    rw [List.map_cons, toLower_of_isDigit hc] at hread
    rw [if_neg hzero] at hfits
    rw [if_neg hzero, if_neg hzero, hread]
    cases hmagnitude : Number.readMagnitude (c :: cs.take (w + f + e)) with
    | some x => rfl
    | none =>
      rw [hmagnitude] at hfits
      obtain ⟨_, hkind, -⟩ | hgap := hfits
      · cases hkind
      · have hdigits : IsDigits (c :: cs.take (w + f + e)) := isDigits_of_gap hgap
        rw [map_toLower_of_isDigit fun d hd => hdigits.2 d (List.mem_cons_of_mem c hd)]
        rfl

/-! ## Comments and quotes -/

theorem commentLength_toLower (cs : List Char) : commentLength (cs.map Char.toLower) = commentLength cs := by
  induction cs with
  | nil => rfl
  | cons c cs ih =>
    have hclose : c.toLower = '*' ∧ (cs.map Char.toLower).head? = some '/' ↔ c = '*' ∧ cs.head? = some '/' := by
      rw [toLower_eq_iff (by decide), head?_toLower_eq_iff (by decide)]
    by_cases hc : c = '*' ∧ cs.head? = some '/'
    · obtain ⟨rfl, hhead⟩ := hc
      obtain ⟨rest, rfl⟩ := List.head?_eq_some_iff.mp hhead
      rfl
    · rw [List.map_cons, commentLength_cons hc, commentLength_cons (mt hclose.mp hc), ih]

theorem quoted_toLower {q : Char} (hq : q.isAlpha = false) (cs : List Char) :
    quoted q (cs.map Char.toLower) = (quoted q cs).map (List.map Char.toLower) := by
  have hstop : ∀ c : Char, decide (c.toLower ≠ q ∧ c.toLower ≠ '\n') = decide (c ≠ q ∧ c ≠ '\n') := by
    intro c
    simp only [ne_eq, toLower_eq_iff hq, toLower_eq_iff (d := '\n') (by decide)]
  unfold quoted
  dsimp only
  rw [takeWhile_toLower hstop, List.length_map, ← List.map_drop,
    if_congr (head?_toLower_eq_iff hq) rfl rfl, apply_ite (Option.map (List.map Char.toLower))]
  rfl

theorem quotation_toLower {q : Char} (hq : q.isAlpha = false) {kind : String → Kind}
    (hkind : ∀ content, (kind content).toLower = kind content.toLower) (flaw : Flaw) (cs : List Char) :
    quotation q kind flaw (cs.map Char.toLower) =
      ((quotation q kind flaw cs).1.toLower, (quotation q kind flaw cs).2) := by
  unfold quotation
  rw [quoted_toLower hq]
  cases quoted q cs with
  | none => rfl
  | some content => simp [PieceKind.toLower, hkind, toLower_ofList]

/-! ## Pieces -/

/-- No letter belongs to a symbol. -/
theorem symbolAt_letter (c : Char) {d : Char} (hd : d.isAlpha = true) (cs : List Char) :
    symbolAt c (d :: cs) = symbolAt c [] := by
  have hne : ∀ x : Char, x.isAlpha = false → d ≠ x := by
    rintro x hx rfl
    rw [hd] at hx
    cases hx
  have hgreater := hne '>' (by decide)
  have hequal := hne '=' (by decide)
  have hcolon := hne ':' (by decide)
  unfold symbolAt
  rw [List.head?_cons, List.head?_nil]
  split <;> simp_all

theorem symbolAt_toLower (c : Char) (cs : List Char) : symbolAt c (cs.map Char.toLower) = symbolAt c cs := by
  cases cs with
  | nil => rfl
  | cons d cs =>
    rw [List.map_cons]
    by_cases hd : d.isAlpha = true
    · rw [symbolAt_letter c hd, symbolAt_letter c (by rw [isAlpha_toLower, hd])]
    · rw [toLower_of_isAlpha_eq_false (by simpa using hd)]
      unfold symbolAt
      rfl

theorem pieceAt_toLower (c : Char) (cs : List Char) :
    pieceAt c.toLower (cs.map Char.toLower) = ((pieceAt c cs).1.toLower, (pieceAt c cs).2) := by
  have hline : ∀ d : Char, decide (d.toLower ≠ '\n') = decide (d ≠ '\n') := by
    intro d
    simp only [ne_eq, toLower_eq_iff (d := '\n') (by decide)]
  unfold pieceAt
  simp only [isBlank_toLower, isWordStart_toLower, isDigit_toLower, toLower_eq_iff (d := '/') (by decide),
    toLower_eq_iff (d := '"') (by decide), toLower_eq_iff (d := '\'') (by decide),
    head?_toLower_eq_iff (d := '/') (by decide), head?_toLower_eq_iff (d := '*') (by decide)]
  split_ifs with hblank hcomment hblock hstring hphrase hword hdigit
  · rfl
  · rw [takeWhile_toLower hline, List.length_map]
    rfl
  · rw [← List.map_drop, commentLength_toLower, List.length_map]
    cases commentLength (cs.drop 1) <;> rfl
  · exact quotation_toLower (by decide) (fun _ => rfl) _ cs
  · exact quotation_toLower (by decide) (fun _ => rfl) _ cs
  · exact word_toLower c cs
  · rw [toLower_of_isDigit hdigit]
    exact number_toLower hdigit cs
  · have halpha : c.isAlpha = false := by
      rw [isWordStart, Bool.or_eq_true, not_or] at hword
      simpa using hword.1
    rw [toLower_of_isAlpha_eq_false halpha, symbolAt_toLower]
    cases symbolAt c cs <;> rfl

/-- Every piece stands where it stood. -/
theorem pieces_toLower (cs : List Char) : pieces (cs.map Char.toLower) = (pieces cs).map Piece.toLower := by
  fun_induction pieces cs with
  | case1 => simp [pieces]
  | case2 c cs ih =>
    rw [List.map_cons, pieces, pieceAt_toLower, ← List.map_drop, ih, ← List.map_take]
    rfl

theorem ofPieces_toLower (m : Mark) (ps : List Piece) :
    ofPieces m (ps.map Piece.toLower) = (ofPieces m ps).map Token.toLower := by
  induction ps generalizing m with
  | nil =>
    have hlexeme : "".toLower = "" := toLower_ofList []
    simp [ofPieces, atEnd, Token.toLower, Kind.toLower, hlexeme]
  | cons p ps ih =>
    obtain ⟨kind, text⟩ := p
    cases kind with
    | token k => simp [ofPieces, Piece.toLower, PieceKind.toLower, Token.toLower, toLower_ofList, ih]
    | _ => simp [ofPieces, Piece.toLower, PieceKind.toLower, ih]

theorem errorsOfPieces_toLower (m : Mark) (ps : List Piece) :
    errorsOfPieces m (ps.map Piece.toLower) = errorsOfPieces m ps := by
  induction ps generalizing m with
  | nil => rfl
  | cons p ps ih =>
    obtain ⟨kind, text⟩ := p
    cases kind <;> simp [errorsOfPieces, Piece.toLower, PieceKind.toLower, ih]

end Token

/-- In lower case, a text has its tokens in lower case, each at its place, and the same errors. Keywords, numbers
and symbols are the same. -/
theorem tokenize_toLower (text : String) :
    (tokenize text.toLower).tokens = (tokenize text).tokens.map Token.toLower ∧
      (tokenize text.toLower).errors = (tokenize text).errors := by
  have hpieces : Token.pieces text.toLower.toList = (Token.pieces text.toList).map Token.Piece.toLower := by
    rw [Token.toList_toLower, Token.pieces_toLower]
  unfold tokenize
  rw [hpieces]
  exact ⟨Token.ofPieces_toLower _ _, Token.errorsOfPieces_toLower _ _⟩

end ObjectAction
