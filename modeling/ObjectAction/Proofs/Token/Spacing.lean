/-
Texts with tokens of given kinds: spellings one after another, and between each two of them a blank and then
blanks and comments in any order. A blank ends every spelling, so that nothing runs into what follows it, but for one
case: `end` looks behind the blanks for a word that it closes.

Main statement: without that case, such a text is cut into exactly these tokens, and nothing in it is an error
(`tokenize_spaced`).
-/
import ObjectAction.Proofs.Token.Seam
import Mathlib.Tactic

namespace ObjectAction.Token

open Text (Mark isBlank)

/-! ## Texts -/

/-- Blanks and comments that are closed, a line comment by the end of its line. -/
inductive Filler : List Char → Prop
  | nothing : Filler []
  | blank {c : Char} {rest : List Char} (hc : isBlank c = true) (hrest : Filler rest) : Filler (c :: rest)
  | lineComment {content rest : List Char} (hline : ∀ c ∈ content, c ≠ '\n') (hrest : Filler rest) :
    Filler ('/' :: '/' :: content ++ '\n' :: rest)
  | blockComment {content rest : List Char} (hopen : ¬ ['*', '/'] <:+: content) (hrest : Filler rest) :
    Filler ('/' :: '*' :: content ++ '*' :: '/' :: rest)

/-- What can stand between two spellings: a blank, and then any filler. -/
def Separates (cs : List Char) : Prop := ∃ b rest, cs = b :: rest ∧ isBlank b = true ∧ Filler rest

/-- A text with tokens of these kinds, each in one of its spellings. Behind the last one the text can end at once, or
behind a separator, or with a line comment that nothing closes. -/
inductive Spaced : List Kind → List Char → Prop
  | nothing : Spaced [] []
  | remark {content : List Char} (hline : ∀ c ∈ content, c ≠ '\n') : Spaced [] ('/' :: '/' :: content)
  | last {kind : Kind} {lexeme : List Char} (hlexeme : Spells kind lexeme) : Spaced [kind] lexeme
  | token {kind : Kind} {lexeme separator : List Char} {kinds : List Kind} {rest : List Char}
    (hlexeme : Spells kind lexeme) (hseparator : Separates separator) (hrest : Spaced kinds rest) :
    Spaced (kind :: kinds) (lexeme ++ (separator ++ rest))

/-- Whether a token begins with a word that closes an `end` before it, in any letter case. -/
def Kind.closesEnd : Kind → Prop
  | .keyword k => k ∈ [Keyword.«for», .«if», .«while»]
  | .qualifier name => String.ofList (name.toList.map Char.toLower) ∈ ["for", "if", "while"]
  | _ => False

/-- What can follow a spelling without becoming a part of it: nothing, or a blank. -/
def Stops (rest : List Char) : Prop := ∀ b ∈ rest.head?, isBlank b = true

theorem Separates.stops {separator : List Char} (h : Separates separator) (rest : List Char) :
    Stops (separator ++ rest) := by
  obtain ⟨b, more, rfl, hb, -⟩ := h
  intro c hc
  obtain rfl : b = c := by simpa using hc
  exact hb

theorem Stops.head {rest : List Char} (h : Stops rest) {p : Char → Bool} (hp : ∀ b, isBlank b = true → p b = false) :
    ∀ b ∈ rest.head?, p b = false := fun b hb => hp b (h b hb)

/-! ## Words in any letter case -/

/-- The letters that are others in lower case, from the first on. -/
def capital (n : Nat) : Char := Char.ofNat (65 + n)

theorem exists_capital {c : Char} (h : c.isUpper = true) : ∃ n < 26, c = capital n := by
  have hrange : 65 ≤ c.val ∧ c.val ≤ 90 := of_decide_eq_true h
  have hlow : 65 ≤ c.toNat := UInt32.le_iff_toNat_le.mp hrange.1
  have hhigh : c.toNat ≤ 90 := UInt32.le_iff_toNat_le.mp hrange.2
  refine ⟨c.toNat - 65, by omega, ?_⟩
  rw [capital, Nat.add_sub_cancel' hlow, Char.ofNat_toNat]

theorem toLower_of_not_isUpper {c : Char} (h : ¬ c.isUpper = true) : c.toLower = c :=
  dif_neg fun hrange => h (decide_eq_true hrange)

/-- What does not tell the capitals from their small letters tells no character from itself in lower case. -/
theorem apply_toLower {α : Type} {f : Char → α} (h : ∀ n < 26, f (capital n).toLower = f (capital n)) (c : Char) :
    f c.toLower = f c := by
  by_cases hc : c.isUpper = true
  · obtain ⟨n, hn, rfl⟩ := exists_capital hc
    exact h n hn
  · rw [toLower_of_not_isUpper hc]

theorem isWordStart_toLower : ∀ c : Char, isWordStart c.toLower = isWordStart c :=
  apply_toLower (by decide)

theorem isWordChar_toLower : ∀ c : Char, isWordChar c.toLower = isWordChar c :=
  apply_toLower (by decide)

theorem isWord_of_lower {w : List Char} (h : Lexeme.isWord (String.ofList (w.map Char.toLower)) = true) : IsWord w := by
  obtain ⟨c, cs, hw, hc, hcs⟩ := Lexeme.isWord_cons h
  rw [String.toList_ofList, List.map_eq_cons_iff] at hw
  obtain ⟨d, ds, rfl, rfl, rfl⟩ := hw
  rw [isWordStart_toLower] at hc
  refine ⟨d, ds, rfl, hc, fun e he => ?_⟩
  rw [← isWordChar_toLower]
  exact List.all_eq_true.mp hcs _ (List.mem_map_of_mem he)

theorem Denotes.isWord {w : List Char} {k : Keyword} (h : Denotes w k) : IsWord w :=
  isWord_of_lower (Lexeme.words_spell _ h).1

theorem Denotes.ofWord? {w : List Char} {k : Keyword} (h : Denotes w k) : Keyword.ofWord? w = some k := by
  have hall : ∀ p ∈ Keyword.words, Keyword.words.lookup p.1 = some p.2 := by decide +kernel
  exact hall _ h

theorem closing?_eq_some_iff {w : List Char} : (∃ k, Keyword.closing? w = some k) ↔
    String.ofList (w.map Char.toLower) ∈ ["for", "if", "while"] := by
  constructor
  · rintro ⟨k, hk⟩
    have hmem := List.mem_map_of_mem (f := Prod.fst) (closing?_eq_some hk)
    exact hmem
  · intro h
    unfold Keyword.closing?
    simp only [List.mem_cons, List.not_mem_nil, or_false] at h
    rcases h with h | h | h <;> rw [h] <;> exact ⟨_, rfl⟩

theorem isWord_of_closing {w : List Char} (h : String.ofList (w.map Char.toLower) ∈ ["for", "if", "while"]) :
    IsWord w := by
  have hall : ∀ word ∈ ["for", "if", "while"], Lexeme.isWord word = true := by decide
  exact isWord_of_lower (hall _ h)

/-! ## Numbers -/

theorem fractionLength_append {fraction rest : List Char} (h : fraction = [] ∨ IsFraction fraction)
    (hpoint : rest.head? ≠ some '.') (hdigit : ∀ c ∈ rest.head?, c.isDigit = false) :
    fractionLength (fraction ++ rest) = fraction.length := by
  rcases h with rfl | ⟨ds, hds, rfl⟩
  · unfold fractionLength
    split
    · rename_i cs heq
      rw [List.nil_append] at heq
      rw [heq] at hpoint
      exact absurd rfl hpoint
    · rfl
  · simp only [List.cons_append, fractionLength, takeWhile_run hds.2 hdigit, if_neg hds.1, List.length_cons]

theorem signedDigitsLength_append {sign ds rest : List Char} (hsign : sign ∈ [[], ['+'], ['-']]) (hds : IsDigits ds)
    (hdigit : ∀ c ∈ rest.head?, c.isDigit = false) :
    signedDigitsLength (sign ++ ds ++ rest) = sign.length + ds.length := by
  have htake := takeWhile_run hds.2 hdigit
  obtain ⟨hne, hall⟩ := hds
  simp only [List.mem_cons, List.not_mem_nil, or_false] at hsign
  rcases hsign with rfl | rfl | rfl
  · obtain ⟨d, ds, rfl⟩ := List.exists_cons_of_ne_nil hne
    have hd := hall d List.mem_cons_self
    unfold signedDigitsLength
    split
    · rename_i heq
      obtain ⟨rfl, -⟩ := List.cons.inj heq
      exact absurd hd (by decide)
    · rename_i heq
      obtain ⟨rfl, -⟩ := List.cons.inj heq
      exact absurd hd (by decide)
    · rw [List.nil_append, htake, List.length_nil, Nat.zero_add]
  · simp only [List.cons_append, List.nil_append, signedDigitsLength, htake, if_neg hne, List.length_singleton]
    omega
  · simp only [List.cons_append, List.nil_append, signedDigitsLength, htake, if_neg hne, List.length_singleton]
    omega

theorem exponentLength_append {exponent rest : List Char} (h : exponent = [] ∨ IsExponent exponent)
    (hrest : Stops rest) : exponentLength (exponent ++ rest) = exponent.length := by
  rcases h with rfl | ⟨e, sign, ds, he, hsign, hds, rfl⟩
  · cases rest with
    | nil => rfl
    | cons b rest => exact (Lexeme.number_stop (hrest b rfl) rest).2
  · have hlower : e.toLower = 'e' := by rcases he with rfl | rfl <;> decide
    have hlength := signedDigitsLength_append hsign hds (hrest.head fun _ => Lexeme.blank_not_digit)
    have hpos := List.length_pos_iff.mpr hds.1
    rw [List.cons_append, exponentLength, hlength, if_pos ⟨hlower, by omega⟩, List.length_cons, List.length_append]

/-- Neither an exponent nor what stops a spelling begins with a digit or a point. -/
theorem head?_exponent {exponent rest : List Char} (h : exponent = [] ∨ IsExponent exponent) (hrest : Stops rest) :
    ∀ c ∈ (exponent ++ rest).head?, c.isDigit = false ∧ c ≠ '.' := by
  rcases h with rfl | ⟨e, sign, ds, he, -, -, rfl⟩
  · intro c hc
    have hblank := hrest c hc
    exact ⟨Lexeme.blank_not_digit hblank, Lexeme.blank_ne hblank (by decide) (by decide)⟩
  · intro c hc
    obtain rfl : e = c := by simpa using hc
    rcases he with rfl | rfl <;> decide

/-- A number ends where its spelling does. -/
theorem number_append {c : Char} {digits fraction exponent rest : List Char} (hdigits : ∀ d ∈ digits, d.isDigit = true)
    (hfraction : fraction = [] ∨ IsFraction fraction) (hexponent : exponent = [] ∨ IsExponent exponent)
    (hrest : Stops rest) {kind : Kind}
    (hkind : (if fraction ++ exponent = [] then
        (Number.int64? (Number.ofDigits (c :: (digits ++ fraction ++ exponent)))).map Kind.integer
      else (Number.readMagnitude (c :: (digits ++ fraction ++ exponent))).map Kind.real) = some kind) :
    number c (digits ++ fraction ++ exponent ++ rest) = (.token kind, (digits ++ fraction ++ exponent).length) := by
  have hhead := head?_exponent hexponent hrest
  have hpoint : (exponent ++ rest).head? ≠ some '.' := fun h => (hhead '.' h).2 rfl
  have hwhole : ∀ d ∈ (fraction ++ (exponent ++ rest)).head?, d.isDigit = false := by
    rcases hfraction with rfl | ⟨ds, -, rfl⟩
    · exact fun d hd => (hhead d hd).1
    · intro d hd
      obtain rfl : '.' = d := by simpa using hd
      decide
  have hzero : fraction.length + exponent.length = 0 ↔ fraction ++ exponent = [] := by
    rw [← List.length_append, List.length_eq_zero_iff]
  have hlength : (digits ++ fraction).length + exponent.length = (digits ++ fraction ++ exponent).length :=
    List.length_append.symm
  unfold number
  rw [List.append_assoc, List.append_assoc]
  simp only [takeWhile_run hdigits hwhole, List.drop_left,
    fractionLength_append hfraction hpoint fun d hd => (hhead d hd).1]
  rw [← List.append_assoc digits fraction, ← List.length_append, List.drop_left, exponentLength_append hexponent hrest,
    ← List.append_assoc, hlength, List.take_left]
  simp only [hzero, hkind]

/-! ## Spellings -/

theorem starts_of_unterminatedComment {c : Char} {cs : List Char}
    (h : (pieceAt c cs).1 = .flaw .unterminatedComment) : c = '/' ∧ cs.head? = some '*' := by
  have hfits := fits_pieceAt c cs
  rw [h] at hfits
  rcases hfits with ⟨kind, hkind, -⟩ | hgap
  · cases hkind
  · generalize htext : c :: cs.take (pieceAt c cs).2 = text at hgap
    cases hgap with
    | unterminatedComment hrest hopen =>
      obtain ⟨rfl, hcs⟩ := List.cons.inj htext
      refine ⟨rfl, ?_⟩
      rw [← List.take_append_drop (pieceAt '/' cs).2 cs, hcs]
      rfl

theorem pieceAt_openComment {cs : List Char} (h : cs.head? = some '*') (kind : Kind) :
    (pieceAt '/' cs).1 ≠ .token kind := by
  have hslash : isBlank '/' = false := by decide
  unfold pieceAt
  rw [if_neg (by simp [hslash]), if_neg (by simp [h]), if_pos ⟨rfl, h⟩]
  split <;> simp

/-- What is cut whole before a blank is cut so at the end of a text, too. -/
theorem cut_whole {l : Lexeme} (h : l.Whole) {c : Char} {cs rest : List Char} (htext : l.text.toList = c :: cs)
    (hrest : Stops rest) : pieceAt c (cs ++ rest) = (.token l.kind, cs.length) := by
  obtain ⟨c', cs', htext', hcut⟩ := h
  obtain ⟨rfl, rfl⟩ := List.cons.inj (htext'.symm.trans htext)
  cases rest with
  | cons b rest => exact hcut b rest (hrest b rfl)
  | nil =>
    have hline := hcut '\n' [] (by decide)
    rw [List.append_nil]
    rw [← hline, pieceAt_seam c' cs' [] _ (.inl rfl)]
    -- an open comment is no token with a line end behind it, either
    intro hflaw
    obtain ⟨rfl, hstar⟩ := starts_of_unterminatedComment hflaw
    apply pieceAt_openComment ((head?_seam (by decide) cs' []).mpr hstar) l.kind
    rw [hline]

/-- A single word, unless it is an `end` that something closes. -/
theorem word_append {c : Char} {cs rest : List Char} (hcs : ∀ d ∈ cs, isWordChar d = true) (hrest : Stops rest)
    (hend : Keyword.ofWord? (c :: cs) = some .«end» → closingAfter rest = none) :
    word c (cs ++ rest) = (.token (Lexeme.wordKind (String.ofList (c :: cs))), cs.length) := by
  have hword : ∀ b ∈ rest.head?, isWordChar b = false := hrest.head fun _ => Lexeme.blank_not_wordChar
  have hcolons : [':', ':'].isPrefixOf rest = false := by
    cases rest with
    | nil => rfl
    | cons b rest =>
      have hcolon : b ≠ ':' := Lexeme.blank_ne (hrest b rfl) (by decide) (by decide)
      simp [List.isPrefixOf, hcolon.symm]
  unfold word Lexeme.wordKind
  simp only [takeWhile_run hcs hword, dropWhile_run hcs hword, hcolons, String.toList_ofList]
  cases hk : Keyword.ofWord? (c :: cs) with
  | none => rfl
  | some k =>
    by_cases hkend : k = .«end»
    · subst hkend
      simp [hend hk]
    · cases k <;> first | rfl | exact absurd rfl hkend

/-- Every spelling is cut as itself before a blank and at the end of a text, but for an `end` that something
closes. -/
theorem Spells.cut {kind : Kind} {c : Char} {cs rest : List Char} (h : Spells kind (c :: cs)) (hrest : Stops rest)
    (hend : kind = .keyword .«end» → closingAfter rest = none) : pieceAt c (cs ++ rest) = (.token kind, cs.length) := by
  generalize htext : c :: cs = text at h
  cases h with
  | @identifier w hw hk =>
    obtain ⟨c, cs, rfl, hc, hcs⟩ := hw
    cases htext
    have hnone : Keyword.ofWord? (c :: cs) = none := by
      cases hword : Keyword.ofWord? (c :: cs) with
      | none => rfl
      | some k => exact absurd (ofWord?_eq_some hword) (hk k)
    rw [Lexeme.pieceAt_word hc, word_append hcs hrest (by simp [hnone]), Lexeme.wordKind, String.toList_ofList, hnone]
  | @keyword w k hw =>
    obtain ⟨c, cs, rfl, hc, hcs⟩ := hw.isWord
    cases htext
    have hword := hw.ofWord?
    have hclosing : Keyword.ofWord? (c :: cs) = some .«end» → closingAfter rest = none := by
      intro hk
      rw [hword] at hk
      exact hend (by rw [Option.some.inj hk])
    rw [Lexeme.pieceAt_word hc, word_append hcs hrest hclosing, Lexeme.wordKind, String.toList_ofList, hword]
  | @qualifier w hw =>
    have hword : Lexeme.isWord (String.ofList w) = true := by
      obtain ⟨c, cs, rfl, hc, hcs⟩ := hw
      simp [Lexeme.isWord, hc, List.all_eq_true.mpr hcs]
    exact cut_whole (Lexeme.qualifier_whole hword) (by simp [Lexeme.qualifier, htext]) hrest
  | @closing start gap word k hstart hgap hblank hword =>
    obtain ⟨s, ss, rfl, hs, hss⟩ := hstart.isWord
    have hlower : String.ofList (word.map Char.toLower) ∈ ["for", "if", "while"] :=
      List.mem_map_of_mem (f := Prod.fst) hword
    obtain ⟨d, ds, rfl, hd, hds⟩ := isWord_of_closing hlower
    obtain ⟨k', hk'⟩ := closing?_eq_some_iff.mpr hlower
    obtain rfl : k' = k := by
      have hkeys : ∀ p ∈ [("for", Keyword.endFor), ("if", .endIf), ("while", .endWhile)],
        ∀ q ∈ [("for", Keyword.endFor), ("if", .endIf), ("while", .endWhile)], p.1 = q.1 → p.2 = q.2 := by decide
      exact hkeys _ (closing?_eq_some hk') _ hword rfl
    have hwhole := Lexeme.closing_whole hs (List.all_eq_true.mpr hss) hstart.ofWord? hgap
      (List.all_eq_true.mpr hblank) hd (List.all_eq_true.mpr hds) hk' String.toList_ofList
    exact cut_whole hwhole (by rw [String.toList_ofList, htext]) hrest
  | @integer ds n hds hn =>
    subst htext
    have hnumber : number c (cs ++ [] ++ [] ++ rest) = (.token (.integer n), (cs ++ [] ++ []).length) :=
      number_append (fun d hd => hds.2 d (List.mem_cons_of_mem c hd)) (.inl rfl) (.inl rfl) hrest
        (by simp [Lexeme.int64?_of_toInt hn])
    rw [Lexeme.pieceAt_number (hds.2 c List.mem_cons_self)]
    simpa using hnumber
  | @real whole fraction exponent x hwhole hfraction hexponent hsome hx =>
    obtain ⟨d, ds, rfl⟩ := List.exists_cons_of_ne_nil hwhole.1
    obtain ⟨rfl, rfl⟩ := List.cons.inj htext
    rw [Lexeme.pieceAt_number (hwhole.2 c List.mem_cons_self)]
    refine number_append (fun d hd => hwhole.2 d (List.mem_cons_of_mem c hd)) hfraction hexponent hrest ?_
    rw [if_neg hsome]
    exact congrArg (Option.map Kind.real) hx
  | @string content hcontent =>
    have hall : (String.ofList content).toList.all (fun c => c ≠ '"' ∧ c ≠ '\n') = true := by simpa using hcontent
    exact cut_whole (Lexeme.string_whole hall) (by simp [Lexeme.string, htext]) hrest
  | @phrase content hcontent =>
    have hall : (String.ofList content).toList.all (fun c => c ≠ '\'' ∧ c ≠ '\n') = true := by simpa using hcontent
    exact cut_whole (Lexeme.phrase_whole hall) (by simp [Lexeme.phrase, htext]) hrest
  | symbol s => exact cut_whole (Lexeme.symbol_whole s) htext.symm hrest

/-! ## What `end` finds behind it -/

/-- The word behind the blanks at the beginning of a text. -/
def firstWord (cs : List Char) : List Char := (cs.dropWhile isBlank).takeWhile isWordChar

theorem firstWord_of_not_blank {c : Char} (hc : isBlank c = false) (cs : List Char) :
    firstWord (c :: cs) = (c :: cs).takeWhile isWordChar := by
  simp [firstWord, hc]

theorem closing?_of_closingAfter {rest : List Char} {k : Keyword} {n : Nat} (h : closingAfter rest = some (k, n)) :
    Keyword.closing? (firstWord rest) = some k := by
  unfold closingAfter at h
  dsimp only at h
  split at h
  · cases h
  · obtain ⟨k', hk', heq⟩ := Option.map_eq_some_iff.mp h
    obtain ⟨rfl, -⟩ := Prod.mk.inj heq
    exact hk'

/-- Behind filler stands what follows it, or else a comment. -/
theorem Filler.firstWord {filler : List Char} (h : Filler filler) (rest : List Char) :
    firstWord (filler ++ rest) = Token.firstWord rest ∨ Token.firstWord (filler ++ rest) = [] := by
  have hslash : isBlank '/' = false := by decide
  have hword : isWordChar '/' = false := by decide
  induction h with
  | nothing => exact .inl rfl
  | blank hc hrest ih => simpa [Token.firstWord, hc] using ih
  | lineComment hline hrest ih => exact .inr (by simp [Token.firstWord, hslash, hword])
  | blockComment hopen hrest ih => exact .inr (by simp [Token.firstWord, hslash, hword])

/-- Only a word closes an `end`. -/
theorem closing?_eq_none {c : Char} (hblank : isBlank c = false) (hc : isWordStart c = false) (cs : List Char) :
    Keyword.closing? (firstWord (c :: cs)) = none := by
  cases hclosing : Keyword.closing? (firstWord (c :: cs)) with
  | none => rfl
  | some k =>
    obtain ⟨d, ds, hword, hd, -⟩ := isWord_of_closing (closing?_eq_some_iff.mp ⟨k, hclosing⟩)
    rw [firstWord_of_not_blank hblank, List.takeWhile_cons] at hword
    split at hword
    · rw [(List.cons.inj hword).1, hd] at hc
      cases hc
    · cases hword

theorem firstWord_append {w rest : List Char} (hw : IsWord w) (hrest : ∀ c ∈ rest.head?, isWordChar c = false) :
    firstWord (w ++ rest) = w := by
  obtain ⟨c, cs, rfl, hc, hcs⟩ := hw
  have hcode := Lexeme.wordStart_code hc
  have hchar := Lexeme.isWordChar_of_isWordStart hc
  rw [List.cons_append, firstWord_of_not_blank (Lexeme.not_blank_of_code (by omega) (by omega)), ← List.cons_append]
  exact takeWhile_run (by simpa [hchar] using hcs) hrest

theorem denotes_of_closing {w : List Char} {k : Keyword} (h : Keyword.closing? w = some k) :
    ∃ k' ∈ [Keyword.«for», .«if», .«while»], Denotes w k' := by
  have hlower := closing?_eq_some_iff.mp ⟨k, h⟩
  unfold Denotes
  simp only [List.mem_cons, List.not_mem_nil, or_false] at hlower
  rcases hlower with hlower | hlower | hlower
  · exact ⟨.«for», by decide, by rw [hlower]; decide⟩
  · exact ⟨.«if», by decide, by rw [hlower]; decide⟩
  · exact ⟨.«while», by decide, by rw [hlower]; decide⟩

theorem Denotes.unique {w : List Char} {k k' : Keyword} (h : Denotes w k) (h' : Denotes w k') : k = k' :=
  Option.some.inj (h.ofWord?.symm.trans h'.ofWord?)

/-- A spelling closes an `end` before it only if it begins with a word that does. -/
theorem Spells.closesEnd {kind : Kind} {lexeme rest : List Char} (h : Spells kind lexeme) (hrest : Stops rest)
    {k : Keyword} (hk : Keyword.closing? (firstWord (lexeme ++ rest)) = some k) : kind.closesEnd := by
  have hword : ∀ c ∈ rest.head?, isWordChar c = false := hrest.head fun _ => Lexeme.blank_not_wordChar
  have hother : ∀ c cs, lexeme = c :: cs → isBlank c = false → isWordStart c = true := by
    intro c cs hlexeme hblank
    by_contra hstart
    rw [hlexeme, List.cons_append, closing?_eq_none hblank (by simpa using hstart)] at hk
    cases hk
  have hdigits : ∀ ds more, IsDigits ds → lexeme ≠ ds ++ more := by
    rintro ds more ⟨hne, hds⟩ hlexeme
    obtain ⟨d, ds, rfl⟩ := List.exists_cons_of_ne_nil hne
    have hd := hds d List.mem_cons_self
    have hcode := Lexeme.digit_code hd
    have hstart := Lexeme.wordStart_code (hother d _ hlexeme (Lexeme.not_blank_of_code (by omega) (by omega)))
    omega
  cases h with
  | @identifier w hw hnone =>
    rw [firstWord_append hw hword] at hk
    obtain ⟨k', -, hdenotes⟩ := denotes_of_closing hk
    exact absurd hdenotes (hnone k')
  | @keyword w k' hw =>
    rw [firstWord_append hw.isWord hword] at hk
    obtain ⟨k'', hmem, hdenotes⟩ := denotes_of_closing hk
    rw [hdenotes.unique hw] at hmem
    exact hmem
  | @qualifier w hw =>
    rw [List.append_assoc, firstWord_append hw (by simp; decide)] at hk
    simpa [Kind.closesEnd] using closing?_eq_some_iff.mp ⟨k, hk⟩
  | @closing start gap word k' hstart hgap hblank hsecond =>
    obtain ⟨g, gs, rfl⟩ := List.exists_cons_of_ne_nil hgap
    have hg : isWordChar g = false := Lexeme.blank_not_wordChar (hblank g List.mem_cons_self)
    rw [List.append_assoc, List.append_assoc, firstWord_append hstart.isWord (by simpa using hg)] at hk
    obtain ⟨k'', hmem, hdenotes⟩ := denotes_of_closing hk
    rw [hdenotes.unique hstart] at hmem
    exact absurd hmem (by decide)
  | @integer ds n hds hn => exact absurd (List.append_nil _).symm (hdigits _ [] hds)
  | @real whole fraction exponent x hwhole hfraction hexponent hsome hx =>
    exact absurd (List.append_assoc _ _ _) (hdigits whole (fraction ++ exponent) hwhole)
  | string hcontent => exact absurd (hother '"' _ rfl (by decide)) (by decide)
  | phrase hcontent => exact absurd (hother '\'' _ rfl (by decide)) (by decide)
  | symbol s =>
    cases s <;> exact absurd (hother _ _ rfl (by decide)) (by decide)

/-- Nothing closes an `end` if what comes next does not. -/
theorem closingAfter_spaced {separator rest : List Char} {kinds : List Kind} (hseparator : Separates separator)
    (hrest : Spaced kinds rest) (hnext : ∀ kind ∈ kinds.head?, ¬ kind.closesEnd) :
    closingAfter (separator ++ rest) = none := by
  have hnone : Keyword.closing? (firstWord rest) = none := by
    by_contra hsome
    obtain ⟨k, hk⟩ := Option.ne_none_iff_exists'.mp hsome
    cases hrest with
    | nothing => cases hk
    | remark hline =>
      rw [closing?_eq_none (by decide) (by decide)] at hk
      cases hk
    | @last kind _ hlexeme =>
      rw [← List.append_nil rest] at hk
      exact hnext kind rfl (hlexeme.closesEnd (by simp [Stops]) hk)
    | @token kind _ _ _ more hlexeme hseparator' hmore =>
      exact hnext kind rfl (hlexeme.closesEnd (hseparator'.stops more) hk)
  obtain ⟨b, filler, rfl, hb, hfiller⟩ := hseparator
  by_contra hsome
  obtain ⟨⟨k, n⟩, hk⟩ := Option.ne_none_iff_exists'.mp hsome
  have hclosing := closing?_of_closingAfter hk
  rcases (Filler.blank hb hfiller).firstWord rest with heq | heq
  · rw [heq, hnone] at hclosing
    cases hclosing
  · rw [heq] at hclosing
    cases hclosing

/-! ## Pieces -/

/-- The kind of the token that a piece is. -/
def PieceKind.token? : PieceKind → Option Kind
  | .token kind => some kind
  | _ => none

/-- The text is cut into tokens of these kinds, and blanks and comments between them. -/
structure Clean (kinds : List Kind) (cs : List Char) : Prop where
  tokens : (pieces cs).filterMap (·.kind.token?) = kinds
  flawless : ∀ p ∈ pieces cs, ∀ f, p.kind ≠ .flaw f

section

variable {kinds : List Kind} {c : Char} {cs rest : List Char}

theorem pieces_append {k : PieceKind} (h : pieceAt c (cs ++ rest) = (k, cs.length)) :
    pieces (c :: cs ++ rest) = ⟨k, c :: cs⟩ :: pieces rest := by
  rw [List.cons_append, pieces, h]
  simp

theorem Clean.token {kind : Kind} (hrest : Clean kinds rest)
    (h : pieceAt c (cs ++ rest) = (.token kind, cs.length)) : Clean (kind :: kinds) (c :: cs ++ rest) := by
  refine ⟨?_, ?_⟩
  · rw [pieces_append h, List.filterMap_cons, hrest.tokens]
    rfl
  · rw [pieces_append h]
    intro p hp
    rcases List.mem_cons.mp hp with rfl | hp
    · exact fun f => nofun
    · exact hrest.flawless p hp

theorem Clean.skip {k : PieceKind} (hrest : Clean kinds rest) (h : pieceAt c (cs ++ rest) = (k, cs.length))
    (hk : k ∈ [PieceKind.blank, .lineComment, .blockComment]) : Clean kinds (c :: cs ++ rest) := by
  have hnone : k.token? = none ∧ ∀ f, k ≠ .flaw f := by
    simp only [List.mem_cons, List.not_mem_nil, or_false] at hk
    rcases hk with rfl | rfl | rfl <;> exact ⟨rfl, fun f => nofun⟩
  refine ⟨?_, ?_⟩
  · rw [pieces_append h, List.filterMap_cons, hnone.1, hrest.tokens]
  · rw [pieces_append h]
    intro p hp
    rcases List.mem_cons.mp hp with rfl | hp
    · exact hnone.2
    · exact hrest.flawless p hp

end

theorem clean_nil : Clean [] [] := by
  refine ⟨?_, ?_⟩
  · rw [pieces]
    rfl
  · rw [pieces]
    exact List.forall_mem_nil _

theorem not_closed_append {content : List Char} (h : ¬ ['*', '/'] <:+: content) :
    ¬ ['*', '/'] <:+: content ++ ['*'] := by
  induction content with
  | nil => decide
  | cons c content ih =>
    rw [closes_cons_iff, not_or] at h
    rw [List.cons_append, closes_cons_iff, not_or]
    refine ⟨?_, ih h.2⟩
    cases content with
    | nil => simp
    | cons d content => exact h.1

theorem Clean.blank {kinds : List Kind} {c : Char} {rest : List Char} (hrest : Clean kinds rest)
    (hc : isBlank c = true) : Clean kinds (c :: rest) := by
  have hpiece : pieceAt c ([] ++ rest) = (.blank, ([] : List Char).length) := Lexeme.pieceAt_blank hc rest
  exact hrest.skip hpiece (by simp)

/-- Filler is skipped. -/
theorem Filler.clean {filler rest : List Char} {kinds : List Kind} (h : Filler filler) (hrest : Clean kinds rest) :
    Clean kinds (filler ++ rest) := by
  induction h with
  | nothing => exact hrest
  | blank hc hfiller ih => exact ih.blank hc
  | @lineComment content more hline hfiller ih =>
    have hline' : Clean kinds ('\n' :: (more ++ rest)) := ih.blank (by decide)
    have hclean := hline'.skip (pieceAt_lineComment hline (.inr rfl)) (by simp)
    simpa using hclean
  | @blockComment content more hopen hfiller ih =>
    have hclean := ih.skip (pieceAt_blockComment (not_closed_append hopen) _) (by simp)
    simpa using hclean

theorem Separates.clean {separator rest : List Char} {kinds : List Kind} (h : Separates separator)
    (hrest : Clean kinds rest) : Clean kinds (separator ++ rest) := by
  obtain ⟨b, filler, rfl, hb, hfiller⟩ := h
  exact (Filler.blank hb hfiller).clean hrest

/-- A spelling is one token. -/
theorem Spells.clean {kind : Kind} {lexeme rest : List Char} {kinds : List Kind} (h : Spells kind lexeme)
    (hstops : Stops rest) (hend : kind = .keyword .«end» → closingAfter rest = none) (hrest : Clean kinds rest) :
    Clean (kind :: kinds) (lexeme ++ rest) := by
  obtain ⟨c, cs, rfl⟩ := List.exists_cons_of_ne_nil h.ne_nil
  exact hrest.token (h.cut hstops hend)

theorem Spaced.clean {kinds : List Kind} {text : List Char} (h : Spaced kinds text)
    (hends : kinds.IsChain fun kind next => kind = .keyword .«end» → ¬ next.closesEnd) : Clean kinds text := by
  induction h with
  | nothing => exact clean_nil
  | @remark content hline =>
    have hclean := clean_nil.skip (pieceAt_lineComment hline (.inl rfl)) (by simp)
    simpa using hclean
  | @last kind lexeme hlexeme =>
    have hclean : Clean [kind] (lexeme ++ []) := hlexeme.clean (by simp [Stops]) (fun _ => rfl) clean_nil
    simpa using hclean
  | @token kind lexeme separator kinds rest hlexeme hseparator hrest ih =>
    refine hlexeme.clean (hseparator.stops rest) (fun hend => ?_) (hseparator.clean (ih hends.tail))
    refine closingAfter_spaced hseparator hrest fun next hnext => ?_
    obtain ⟨kinds, rfl⟩ := List.head?_eq_some_iff.mp hnext
    exact hends.rel hend

/-! ## Tokens -/

theorem kinds_ofPieces (m : Mark) (ps : List Piece) :
    (ofPieces m ps).map Token.kind = ps.filterMap (·.kind.token?) ++ [.endOfInput] := by
  induction ps generalizing m with
  | nil => rfl
  | cons p ps ih =>
    rw [ofPieces, List.filterMap_cons]
    cases p.kind <;> simp [PieceKind.token?, ih]

theorem errorsOfPieces_of_flawless {m : Mark} {ps : List Piece} (h : ∀ p ∈ ps, ∀ f, p.kind ≠ .flaw f) :
    errorsOfPieces m ps = [] := by
  induction ps generalizing m with
  | nil => rfl
  | cons p ps ih =>
    have hrest := fun m => ih (m := m) fun q hq => h q (List.mem_cons_of_mem p hq)
    rw [errorsOfPieces]
    split
    · rename_i f hf
      exact absurd hf (h p List.mem_cons_self f)
    · exact hrest _

/-- Spellings one after another, with a blank and any filler between each two and any filler before the first, are
tokenized into exactly the tokens that they spell, with no error, if no `end` comes right before a token that begins
with a word that closes it. -/
theorem tokenize_spaced (kinds : List Kind) (lead body : List Char) (hlead : Filler lead) (hbody : Spaced kinds body)
    (hends : kinds.IsChain fun kind next => kind = .keyword .«end» → ¬ next.closesEnd) :
    (tokenize (String.ofList (lead ++ body))).errors = [] ∧
      (tokenize (String.ofList (lead ++ body))).tokens.map Token.kind = kinds ++ [.endOfInput] := by
  have hclean := hlead.clean (hbody.clean hends)
  unfold tokenize
  rw [String.toList_ofList]
  refine ⟨errorsOfPieces_of_flawless hclean.flawless, ?_⟩
  rw [kinds_ofPieces, hclean.tokens]

/-- A remark between `END` and `iffy`, blanks of all sorts, and signs that would be others without them. -/
def remarkedText : List Char := "END // if\n iffy eNd\t\u00a0IF End:: 007 - /* -> */> 'x'".toList

/-- The kinds of its tokens. -/
def remarkedKinds : List Kind :=
  [.keyword .«end», .identifier "iffy", .keyword .endIf, .qualifier "End", .integer 7, .symbol .minus, .symbol .greater,
    .phrase "x"]

theorem remarkedText_spaced : Spaced remarkedKinds remarkedText := by
  have hblank : Separates [' '] := ⟨' ', [], rfl, by decide, .nothing⟩
  have hword : ∀ c cs, isWordStart c = true → cs.all isWordChar = true → IsWord (c :: cs) :=
    fun c cs hc hcs => ⟨c, cs, rfl, hc, List.all_eq_true.mp hcs⟩
  have hiffy : Spells (.identifier "iffy") "iffy".toList := by
    refine .identifier (hword _ _ (by decide) (by decide)) fun k => ?_
    exact ofWord?_eq_none (by decide) k
  have hendIf : Spells (.keyword .endIf) "eNd\t\u00a0IF".toList := by
    have hgap : ['\t', '\u00a0'].all isBlank = true := by decide
    exact @Spells.closing ['e', 'N', 'd'] ['\t', '\u00a0'] ['I', 'F'] _ (ofWord?_eq_some (by decide)) (by decide)
      (List.all_eq_true.mp hgap) (by decide)
  refine @Spaced.token _ ['E', 'N', 'D'] " // if\n ".toList _ _ (.keyword (ofWord?_eq_some (by decide))) ?_ ?_
  · exact ⟨' ', _, rfl, by decide, @Filler.lineComment " if".toList [' '] (by simp) (.blank (by decide) .nothing)⟩
  refine @Spaced.token _ _ [' '] _ _ hiffy hblank ?_
  refine @Spaced.token _ _ [' '] _ _ hendIf hblank ?_
  refine @Spaced.token _ "End::".toList [' '] _ _ (@Spells.qualifier "End".toList (hword _ _ (by decide) (by decide)))
    hblank ?_
  refine @Spaced.token _ "007".toList [' '] _ _ (.integer ⟨by simp, by simp⟩ (by decide)) hblank ?_
  refine @Spaced.token _ ['-'] " /* -> */".toList _ _ (.symbol .minus) ?_ ?_
  · exact ⟨' ', _, rfl, by decide, @Filler.blockComment " -> ".toList [] (by decide) .nothing⟩
  refine @Spaced.token _ ['>'] [' '] _ _ (.symbol .greater) hblank ?_
  exact .last (@Spells.phrase ['x'] (by simp))

theorem tokenize_spaced_remarkedText :
    (tokenize (String.ofList remarkedText)).errors = [] ∧
      (tokenize (String.ofList remarkedText)).tokens.map Token.kind = remarkedKinds ++ [.endOfInput] := by
  refine tokenize_spaced remarkedKinds [] remarkedText .nothing remarkedText_spaced ?_
  simp [remarkedKinds, Kind.closesEnd]

end ObjectAction.Token
