/-
What the pieces of a text look like: the spellings of the tokens (`Spells`), and the fragments that stand
between them (`Gap`), which are blanks, comments and flaws. Where a fragment ends depends on the text after
it, so that a fragment is one before a given rest.

Main statements: every piece that is cut is one of these (`fits_pieceAt`), and a fragment is cut as itself
wherever no token is cut (`pieceAt_of_gap`).
-/
import ObjectAction.Proofs.Body.Lexeme
import Mathlib.Data.List.TakeWhile

namespace ObjectAction.Token

/-! ## Spellings -/

/-- A letter or an underscore of ASCII, then letters, digits and underscores. -/
def IsWord (w : List Char) : Prop :=
  ∃ c cs, w = c :: cs ∧ isWordStart c = true ∧ ∀ d ∈ cs, isWordChar d = true

/-- A word is one of the keyword table, in any letter case. -/
def Denotes (w : List Char) (k : Keyword) : Prop := (String.ofList (w.map Char.toLower), k) ∈ Keyword.words

/-- At least one decimal digit. -/
def IsDigits (ds : List Char) : Prop := ds ≠ [] ∧ ∀ d ∈ ds, d.isDigit = true

/-- A point and digits. -/
def IsFraction (cs : List Char) : Prop := ∃ ds, IsDigits ds ∧ cs = '.' :: ds

/-- The mark of an exponent, an optional sign and digits. -/
def IsExponent (cs : List Char) : Prop :=
  ∃ e sign ds, (e = 'e' ∨ e = 'E') ∧ sign ∈ [[], ['+'], ['-']] ∧ IsDigits ds ∧ cs = e :: (sign ++ ds)

/-- How tokens of a kind are spelled. -/
inductive Spells : Kind → List Char → Prop
  | identifier {w : List Char} (hw : IsWord w) (hk : ∀ k, ¬ Denotes w k) : Spells (.identifier (String.ofList w)) w
  | qualifier {w : List Char} (hw : IsWord w) : Spells (.qualifier (String.ofList w)) (w ++ [':', ':'])
  | keyword {w : List Char} {k : Keyword} (hw : Denotes w k) : Spells (.keyword k) w
  /-- A closing keyword is written as two words with blanks between them. -/
  | closing {start gap word : List Char} {k : Keyword} (hstart : Denotes start .«end»)
    (hgap : gap ≠ []) (hblank : ∀ c ∈ gap, Text.isBlank c = true)
    (hword : (String.ofList (word.map Char.toLower), k) ∈
      [("for", Keyword.endFor), ("if", .endIf), ("while", .endWhile)]) :
    Spells (.keyword k) (start ++ gap ++ word)
  | integer {ds : List Char} {n : Int64} (hds : IsDigits ds) (hn : n.toInt = Number.ofDigits ds) :
    Spells (.integer n) ds
  | real {whole fraction exponent : List Char} {x : Float} (hwhole : IsDigits whole)
    (hfraction : fraction = [] ∨ IsFraction fraction) (hexponent : exponent = [] ∨ IsExponent exponent)
    (hsome : fraction ++ exponent ≠ []) (hx : Number.readMagnitude (whole ++ fraction ++ exponent) = some x) :
    Spells (.real x) (whole ++ fraction ++ exponent)
  | string {content : List Char} (h : ∀ c ∈ content, c ≠ '"' ∧ c ≠ '\n') :
    Spells (.string (String.ofList content)) ('"' :: content ++ ['"'])
  | phrase {content : List Char} (h : ∀ c ∈ content, c ≠ '\'' ∧ c ≠ '\n') :
    Spells (.phrase (String.ofList content)) ('\'' :: content ++ ['\''])
  | symbol (s : Symbol) : Spells (.symbol s) s.text.toList

/-! ## Fragments -/

/-- A character that begins nothing in front of `rest`. -/
structure IsStray (c : Char) (rest : List Char) : Prop where
  blank : Text.isBlank c = false
  word : isWordStart c = false
  digit : c.isDigit = false
  string : c ≠ '"'
  phrase : c ≠ '\''
  symbol : ∀ s : Symbol, ¬ s.text.toList <+: c :: rest

/-- What stands between tokens, in front of `rest`. -/
inductive Gap (rest : List Char) : PieceKind → List Char → Prop
  | blank {c : Char} (hc : Text.isBlank c = true) : Gap rest .blank [c]
  /-- A line comment goes up to the end of its line. -/
  | lineComment {content : List Char} (hline : ∀ c ∈ content, c ≠ '\n')
    (hend : rest.head? = none ∨ rest.head? = some '\n') : Gap rest .lineComment ('/' :: '/' :: content)
  /-- A block comment goes up to the first sign that closes it. -/
  | blockComment {content : List Char} (hopen : ¬ ['*', '/'] <:+: content ++ ['*']) :
    Gap rest .blockComment ('/' :: '*' :: content ++ ['*', '/'])
  | unexpectedCharacter {c : Char} (hc : IsStray c rest) : Gap rest (.flaw (.unexpectedCharacter c)) [c]
  /-- All digits up to the first character that is none, for a number that does not fit 64 bits. -/
  | invalidNumber {ds : List Char} (hds : IsDigits ds) (hend : ∀ c ∈ rest.head?, c.isDigit = false)
    (hlarge : 9223372036854775807 < Number.ofDigits ds) : Gap rest (.flaw (.invalidNumber (String.ofList ds))) ds
  /-- Before every further quote the line ends. -/
  | unterminatedString (h : ∀ content after, rest = content ++ '"' :: after → '\n' ∈ content) :
    Gap rest (.flaw .unterminatedString) ['"']
  | unterminatedPhrase (h : ∀ content after, rest = content ++ '\'' :: after → '\n' ∈ content) :
    Gap rest (.flaw .unterminatedPhrase) ['\'']
  /-- A block comment that nothing closes goes up to the end of the text. -/
  | unterminatedComment {content : List Char} (hrest : rest = []) (hopen : ¬ ['*', '/'] <:+: content) :
    Gap rest (.flaw .unterminatedComment) ('/' :: '*' :: content)

/-- A piece is a token in one of its spellings, or a fragment. -/
def Fits (rest : List Char) (k : PieceKind) (text : List Char) : Prop :=
  (∃ kind, k = .token kind ∧ Spells kind text) ∨ Gap rest k text

/-! ## Words -/

theorem ofWord?_eq_some {w : List Char} {k : Keyword} (h : Keyword.ofWord? w = some k) : Denotes w k := by
  obtain ⟨before, after, hwords, -⟩ := List.lookup_eq_some_iff.mp h
  unfold Denotes
  rw [hwords]
  simp

theorem ofWord?_eq_none {w : List Char} (h : Keyword.ofWord? w = none) (k : Keyword) : ¬ Denotes w k := by
  intro hk
  have hne := List.lookup_eq_none_iff.mp h _ hk
  simp at hne

theorem closing?_eq_some {w : List Char} {k : Keyword} (h : Keyword.closing? w = some k) :
    (String.ofList (w.map Char.toLower), k) ∈ [("for", Keyword.endFor), ("if", .endIf), ("while", .endWhile)] := by
  unfold Keyword.closing? at h
  split at h
  all_goals simp_all

/-- After `end` a closing keyword goes on with blanks and its second word. -/
theorem closingAfter_eq_some {rest : List Char} {k : Keyword} {n : Nat} (h : closingAfter rest = some (k, n)) :
    ∃ gap word, gap ≠ [] ∧ (∀ c ∈ gap, Text.isBlank c = true) ∧ Keyword.closing? word = some k ∧
      rest.take n = gap ++ word := by
  unfold closingAfter at h
  dsimp only at h
  split at h
  · cases h
  · rename_i hgap
    obtain ⟨k', hk', heq⟩ := Option.map_eq_some_iff.mp h
    obtain ⟨rfl, rfl⟩ := Prod.mk.inj heq
    refine ⟨_, _, by simpa using hgap, fun c hc => List.mem_takeWhile_imp hc, hk', ?_⟩
    have hrest : rest.takeWhile Text.isBlank ++ rest.dropWhile Text.isBlank = rest :=
      List.takeWhile_append_dropWhile
    generalize rest.takeWhile Text.isBlank = gap at hrest ⊢
    generalize rest.dropWhile Text.isBlank = after at hrest ⊢
    subst hrest
    rw [List.take_length_add_append, ← List.prefix_iff_eq_take.mp (List.takeWhile_prefix _)]

/-- A word is cut as a token whose spelling is all that was taken. -/
theorem spells_word {c : Char} (hc : isWordStart c = true) (cs : List Char) :
    ∃ kind, (word c cs).1 = .token kind ∧ Spells kind (c :: cs.take (word c cs).2) := by
  have hcs : cs.takeWhile isWordChar ++ cs.dropWhile isWordChar = cs := List.takeWhile_append_dropWhile
  have htail : ∀ d ∈ cs.takeWhile isWordChar, isWordChar d = true := fun d hd => List.mem_takeWhile_imp hd
  unfold word
  generalize cs.takeWhile isWordChar = tail at hcs htail ⊢
  generalize cs.dropWhile isWordChar = rest at hcs ⊢
  subst hcs
  have hword : IsWord (c :: tail) := ⟨c, tail, rfl, hc, htail⟩
  have htake : (tail ++ rest).take tail.length = tail := List.take_left
  dsimp only
  split
  · rename_i hcolons
    obtain ⟨after, rfl⟩ := List.isPrefixOf_iff_prefix.mp hcolons
    refine ⟨_, rfl, ?_⟩
    have hmore : (tail ++ ([':', ':'] ++ after)).take (tail.length + 2) = tail ++ [':', ':'] := by
      rw [List.take_length_add_append]
      rfl
    rw [hmore]
    exact .qualifier hword
  · split
    · rename_i hend
      split
      · rename_i k more hclosing
        obtain ⟨gap, second, hgap, hblank, hk, hmore⟩ := closingAfter_eq_some hclosing
        refine ⟨_, rfl, ?_⟩
        rw [List.take_length_add_append, hmore, ← List.append_assoc, ← List.cons_append, ← List.cons_append]
        exact .closing (ofWord?_eq_some hend) hgap hblank (closing?_eq_some hk)
      · refine ⟨_, rfl, ?_⟩
        rw [htake]
        exact .keyword (ofWord?_eq_some hend)
    · rename_i k _ hk
      refine ⟨_, rfl, ?_⟩
      rw [htake]
      exact .keyword (ofWord?_eq_some hk)
    · rename_i hnone
      refine ⟨_, rfl, ?_⟩
      rw [htake]
      exact .identifier hword (ofWord?_eq_none hnone)

/-! ## Numbers -/

/-- A run of characters of a class ends where the class does. -/
theorem takeWhile_run {p : Char → Bool} {run rest : List Char} (hrun : ∀ c ∈ run, p c = true)
    (hrest : ∀ c ∈ rest.head?, p c = false) : (run ++ rest).takeWhile p = run := by
  rw [List.takeWhile_append_of_pos hrun]
  cases rest with
  | nil => simp
  | cons c rest => simp [hrest c rfl]

theorem dropWhile_run {p : Char → Bool} {run rest : List Char} (hrun : ∀ c ∈ run, p c = true)
    (hrest : ∀ c ∈ rest.head?, p c = false) : (run ++ rest).dropWhile p = rest := by
  rw [List.dropWhile_append_of_pos hrun]
  cases rest with
  | nil => rfl
  | cons c rest => simp [hrest c rfl]

theorem head?_dropWhile_not (p : Char → Bool) (cs : List Char) : ∀ c ∈ (cs.dropWhile p).head?, p c = false := by
  intro c hc
  have h := List.head?_dropWhile_not p cs
  rw [Option.mem_def.mp hc] at h
  simpa using h

theorem isDigits_takeWhile {cs : List Char} (h : cs.takeWhile Char.isDigit ≠ []) :
    IsDigits (cs.takeWhile Char.isDigit) :=
  ⟨h, fun _ hd => List.mem_takeWhile_imp hd⟩

theorem take_takeWhile (p : Char → Bool) (cs : List Char) : cs.take (cs.takeWhile p).length = cs.takeWhile p :=
  (List.prefix_iff_eq_take.mp (List.takeWhile_prefix p)).symm

theorem drop_takeWhile (p : Char → Bool) (cs : List Char) : cs.drop (cs.takeWhile p).length = cs.dropWhile p := by
  have h := List.take_append_drop (cs.takeWhile p).length cs
  rw [take_takeWhile] at h
  exact List.append_cancel_left (h.trans List.takeWhile_append_dropWhile.symm)

theorem isFraction_take (cs : List Char) : fractionLength cs = 0 ∨ IsFraction (cs.take (fractionLength cs)) := by
  unfold fractionLength
  split
  · rename_i ds
    split
    · exact .inl rfl
    · rename_i hds
      right
      exact ⟨_, isDigits_takeWhile hds, by rw [List.take_succ_cons, take_takeWhile]⟩
  · exact .inl rfl

theorem signedDigits_take (cs : List Char) : signedDigitsLength cs = 0 ∨
    ∃ sign ds, sign ∈ [[], ['+'], ['-']] ∧ IsDigits ds ∧ cs.take (signedDigitsLength cs) = sign ++ ds := by
  unfold signedDigitsLength
  split
  · split
    · exact .inl rfl
    · rename_i hds
      exact .inr ⟨['+'], _, by simp, isDigits_takeWhile hds, by rw [List.take_succ_cons, take_takeWhile]; rfl⟩
  · split
    · exact .inl rfl
    · rename_i hds
      exact .inr ⟨['-'], _, by simp, isDigits_takeWhile hds, by rw [List.take_succ_cons, take_takeWhile]; rfl⟩
  · by_cases hds : cs.takeWhile Char.isDigit = []
    · left
      rw [hds]
      rfl
    · exact .inr ⟨[], _, by simp, isDigits_takeWhile hds, take_takeWhile _ _⟩

theorem eq_of_toLower_eq_e {c : Char} (h : c.toLower = 'e') : c = 'e' ∨ c = 'E' := by
  unfold Char.toLower at h
  split at h
  · right
    have hval : c.val + 32 = 101 := congrArg Char.val h
    apply Char.ext
    have hsub : c.val + 32 - 32 = 101 - 32 := by rw [hval]
    simpa using hsub
  · exact .inl h

theorem isExponent_take (cs : List Char) : exponentLength cs = 0 ∨ IsExponent (cs.take (exponentLength cs)) := by
  unfold exponentLength
  split
  · rename_i c cs
    split
    · rename_i h
      obtain ⟨sign, ds, hsign, hds, htake⟩ := (signedDigits_take cs).resolve_left h.2
      right
      exact ⟨c, sign, ds, eq_of_toLower_eq_e h.1, hsign, hds, by rw [List.take_succ_cons, htake]⟩
    · exact .inl rfl
  · exact .inl rfl

theorem isDigit_false_of_exponent {exponent : List Char} (h : exponent = [] ∨ IsExponent exponent) :
    ∀ c ∈ exponent.head?, c.isDigit = false := by
  rcases h with rfl | ⟨e, sign, ds, he, -, -, rfl⟩
  · simp
  · intro c hc
    obtain rfl : e = c := by simpa using hc
    rcases he with rfl | rfl <;> decide

theorem readExponent_isSome {exponent : List Char} (h : exponent = [] ∨ IsExponent exponent) :
    (Number.readExponent exponent).isSome = true := by
  rcases h with rfl | ⟨e, sign, ds, he, hsign, ⟨hne, hdigits⟩, rfl⟩
  · rfl
  · have hlower : e.toLower = 'e' := by rcases he with rfl | rfl <;> decide
    have hall : ds.all Char.isDigit = true := by rwa [List.all_eq_true]
    have hsigned : ∃ negative, Number.signed (sign ++ ds) = (negative, ds) := by
      simp only [List.mem_cons, List.not_mem_nil, or_false] at hsign
      rcases hsign with rfl | rfl | rfl
      · -- without a sign the digits themselves must not begin with one
        obtain ⟨d, ds, rfl⟩ := List.exists_cons_of_ne_nil hne
        have hd := hdigits d (by simp)
        unfold Number.signed
        split
        · rename_i heq
          cases heq
          exact absurd hd (by decide)
        · rename_i heq
          cases heq
          exact absurd hd (by decide)
        · exact ⟨false, rfl⟩
      · exact ⟨false, rfl⟩
      · exact ⟨true, rfl⟩
    obtain ⟨negative, hsigned⟩ := hsigned
    simp [Number.readExponent, hlower, hsigned, hne, hall]

/-- Every spelling of a real is read. -/
theorem readMagnitude_isSome {whole fraction exponent : List Char} (hwhole : IsDigits whole)
    (hfraction : fraction = [] ∨ IsFraction fraction) (hexponent : exponent = [] ∨ IsExponent exponent) :
    (Number.readMagnitude (whole ++ fraction ++ exponent)).isSome = true := by
  have hread := readExponent_isSome hexponent
  have hnone := isDigit_false_of_exponent hexponent
  have hne : whole.isEmpty = false := by simpa using hwhole.1
  have hstop : ∀ c ∈ (fraction ++ exponent).head?, c.isDigit = false := by
    rcases hfraction with rfl | ⟨ds, -, rfl⟩
    · exact hnone
    · intro c hc
      obtain rfl : '.' = c := by simpa using hc
      decide
  unfold Number.readMagnitude
  rw [List.append_assoc, takeWhile_run hwhole.2 hstop, dropWhile_run hwhole.2 hstop]
  dsimp only
  rw [if_neg (by simp [hne]), Option.isSome_map]
  rcases hfraction with rfl | ⟨ds, hds, rfl⟩
  · rw [List.nil_append]
    split
    · -- an exponent begins with no point
      rename_i tail
      rcases hexponent with hnil | ⟨e, sign, ds, he, -, -, heq⟩
      · cases hnil
      · cases heq
        simp at he
    · exact hread
  · change (Number.readExponent ((ds ++ exponent).dropWhile Char.isDigit)).isSome = true
    rw [dropWhile_run hds.2 hnone]
    exact hread

theorem toInt_of_int64? {m : Nat} {n : Int64} (h : Number.int64? m = some n) : n.toInt = m := by
  unfold Number.int64? at h
  split at h
  · rename_i hm
    obtain rfl := Option.some.inj h
    exact Int64.toInt_ofInt_of_le (by omega) (by omega)
  · cases h

theorem lt_of_int64?_eq_none {m : Nat} (h : Number.int64? m = none) : 9223372036854775807 < m := by
  unfold Number.int64? at h
  split at h
  · cases h
  · omega

/-- A number is a token, or else all its digits are a flaw: what has a fraction or an exponent is always read. -/
theorem number_cases {c : Char} (hc : c.isDigit = true) {digits after : List Char}
    (hdigits : ∀ d ∈ digits, d.isDigit = true) (hend : ∀ d ∈ after.head?, d.isDigit = false) :
    (∃ kind n, number c (digits ++ after) = (.token kind, n) ∧ Spells kind (c :: (digits ++ after).take n)) ∨
      (number c (digits ++ after) = (.flaw (.invalidNumber (String.ofList (c :: digits))), digits.length) ∧
        9223372036854775807 < Number.ofDigits (c :: digits)) := by
  have hwhole : IsDigits (c :: digits) := ⟨by simp, by simpa [hc] using hdigits⟩
  unfold number
  rw [takeWhile_run hdigits hend]
  dsimp only
  rw [List.drop_left, List.drop_length_add_append]
  have hf := isFraction_take after
  have he := isExponent_take (after.drop (fractionLength after))
  generalize fractionLength after = f at hf he ⊢
  generalize exponentLength (after.drop f) = e at he ⊢
  by_cases hzero : f + e = 0
  · obtain ⟨rfl, rfl⟩ : f = 0 ∧ e = 0 := by omega
    simp only [Nat.add_zero, if_true, List.take_left]
    cases hread : Number.int64? (Number.ofDigits (c :: digits)) with
    | some n => exact .inl ⟨_, _, rfl, by rw [List.take_left]; exact .integer hwhole (toInt_of_int64? hread)⟩
    | none => exact .inr ⟨rfl, lt_of_int64?_eq_none hread⟩
  · have htake : (digits ++ after).take (digits.length + f + e) =
        digits ++ after.take f ++ (after.drop f).take e := by
      rw [Nat.add_assoc, List.take_length_add_append, List.take_add, List.append_assoc]
    have hf' : after.take f = [] ∨ IsFraction (after.take f) := hf.imp_left (by rintro rfl; rfl)
    have he' : (after.drop f).take e = [] ∨ IsExponent ((after.drop f).take e) := he.imp_left (by rintro rfl; rfl)
    have hsome : after.take f ++ (after.drop f).take e ≠ [] := by
      intro hnil
      obtain ⟨hnil1, hnil2⟩ := List.append_eq_nil_iff.mp hnil
      rcases hf with rfl | ⟨ds, -, hds⟩
      · rcases he with rfl | ⟨_, _, _, -, -, -, hes⟩
        · exact hzero rfl
        · rw [hnil2] at hes
          cases hes
      · rw [hnil1] at hds
        cases hds
    obtain ⟨x, hx⟩ := Option.isSome_iff_exists.mp (readMagnitude_isSome hwhole hf' he')
    simp only [hzero, if_false, htake, ← List.cons_append, hx, Option.map_some]
    exact .inl ⟨_, _, rfl, by rw [htake]; exact .real hwhole hf' he' hsome hx⟩

theorem fits_number {c : Char} (hc : c.isDigit = true) (cs : List Char) :
    Fits (cs.drop (number c cs).2) (number c cs).1 (c :: cs.take (number c cs).2) := by
  have hcs : cs.takeWhile Char.isDigit ++ cs.dropWhile Char.isDigit = cs := List.takeWhile_append_dropWhile
  have hdigits : ∀ d ∈ cs.takeWhile Char.isDigit, d.isDigit = true := fun d hd => List.mem_takeWhile_imp hd
  have hend := head?_dropWhile_not Char.isDigit cs
  generalize cs.takeWhile Char.isDigit = digits at hcs hdigits
  generalize cs.dropWhile Char.isDigit = after at hcs hend
  subst hcs
  rcases number_cases hc hdigits hend with ⟨kind, n, heq, hspells⟩ | ⟨heq, hlarge⟩
  · rw [heq]
    exact .inl ⟨kind, rfl, hspells⟩
  · rw [heq, List.take_left, List.drop_left]
    exact .inr (.invalidNumber ⟨by simp, by simpa [hc] using hdigits⟩ hend hlarge)

/-! ## Comments -/

theorem gap_lineComment (cs : List Char) :
    Gap (cs.dropWhile (· ≠ '\n')) .lineComment ('/' :: '/' :: cs.takeWhile (· ≠ '\n')) := by
  refine .lineComment (fun c hc => by simpa using List.mem_takeWhile_imp hc) ?_
  have hend := head?_dropWhile_not (· ≠ '\n') cs
  cases hhead : (cs.dropWhile (· ≠ '\n')).head? with
  | none => exact .inl rfl
  | some c =>
    right
    simpa using hend c hhead

theorem closes_cons_iff {c : Char} {cs : List Char} :
    ['*', '/'] <:+: c :: cs ↔ (c = '*' ∧ cs.head? = some '/') ∨ ['*', '/'] <:+: cs := by
  rw [List.infix_cons_iff, List.cons_prefix_cons]
  cases cs with
  | nil => simp
  | cons d ds => simp [eq_comm]

theorem commentLength_cons {c : Char} {cs : List Char} (h : ¬ (c = '*' ∧ cs.head? = some '/')) :
    commentLength (c :: cs) = (commentLength cs).map (· + 1) := by
  rw [commentLength]
  rintro rest rfl rfl
  exact h ⟨rfl, rfl⟩

/-- A comment is measured up to the first sign that closes it. -/
theorem commentLength_append {content : List Char} (h : ¬ ['*', '/'] <:+: content ++ ['*']) (rest : List Char) :
    commentLength (content ++ '*' :: '/' :: rest) = some (content.length + 2) := by
  induction content with
  | nil => rfl
  | cons c content ih =>
    rw [List.cons_append, closes_cons_iff, not_or] at h
    have hhead : (content ++ '*' :: '/' :: rest).head? = (content ++ ['*']).head? := by cases content <;> rfl
    rw [List.cons_append, commentLength_cons (by rw [hhead]; exact h.1), ih h.2]
    rfl

theorem commentLength_eq_none_iff {cs : List Char} : commentLength cs = none ↔ ¬ ['*', '/'] <:+: cs := by
  induction cs with
  | nil => simp [commentLength]
  | cons c cs ih =>
    rw [closes_cons_iff]
    by_cases hc : c = '*' ∧ cs.head? = some '/'
    · obtain ⟨rfl, hhead⟩ := hc
      obtain ⟨rest, rfl⟩ := List.head?_eq_some_iff.mp hhead
      simp [commentLength]
    · rw [commentLength_cons hc, Option.map_eq_none_iff, ih]
      simp [hc]

theorem commentLength_eq_some {cs : List Char} {n : Nat} (h : commentLength cs = some n) :
    ∃ content rest, cs = content ++ '*' :: '/' :: rest ∧ n = content.length + 2 ∧
      ¬ ['*', '/'] <:+: content ++ ['*'] := by
  induction cs generalizing n with
  | nil => cases h
  | cons c cs ih =>
    by_cases hc : c = '*' ∧ cs.head? = some '/'
    · obtain ⟨rfl, hhead⟩ := hc
      obtain ⟨rest, rfl⟩ := List.head?_eq_some_iff.mp hhead
      obtain rfl := Option.some.inj h
      exact ⟨[], rest, rfl, rfl, by decide⟩
    · rw [commentLength_cons hc] at h
      obtain ⟨m, hm, rfl⟩ := Option.map_eq_some_iff.mp h
      obtain ⟨content, rest, rfl, rfl, hopen⟩ := ih hm
      have hhead : (content ++ '*' :: '/' :: rest).head? = (content ++ ['*']).head? := by cases content <;> rfl
      refine ⟨c :: content, rest, rfl, rfl, ?_⟩
      rw [List.cons_append, closes_cons_iff, ← hhead]
      simp only [hc, hopen, or_self, not_false_eq_true]

/-- Either nothing closes a block comment, or it is cut at the first sign that does. -/
theorem gap_blockComment (cs : List Char) :
    match commentLength cs with
    | some n => Gap (cs.drop n) .blockComment ('/' :: '*' :: cs.take n)
    | none => Gap [] (.flaw .unterminatedComment) ('/' :: '*' :: cs) := by
  split
  · rename_i n hn
    obtain ⟨content, rest, rfl, rfl, hopen⟩ := commentLength_eq_some hn
    have htake : (content ++ '*' :: '/' :: rest).take (content.length + 2) = content ++ ['*', '/'] := by
      rw [List.take_length_add_append]
      rfl
    rw [htake]
    exact .blockComment hopen
  · rename_i hnone
    exact .unterminatedComment rfl (commentLength_eq_none_iff.mp hnone)

/-! ## Quotes -/

theorem quoted_eq_some {q : Char} {cs content : List Char} (h : quoted q cs = some content) :
    (∀ c ∈ content, c ≠ q ∧ c ≠ '\n') ∧ ∃ rest, cs = content ++ q :: rest := by
  unfold quoted at h
  dsimp only at h
  have hcs := List.takeWhile_append_dropWhile (p := fun c => decide (c ≠ q ∧ c ≠ '\n')) (l := cs)
  have hall : ∀ c ∈ cs.takeWhile fun c => decide (c ≠ q ∧ c ≠ '\n'), c ≠ q ∧ c ≠ '\n' :=
    fun c hc => by simpa using List.mem_takeWhile_imp hc
  generalize (cs.takeWhile fun c => decide (c ≠ q ∧ c ≠ '\n')) = run at h hcs hall
  generalize (cs.dropWhile fun c => decide (c ≠ q ∧ c ≠ '\n')) = after at hcs
  subst hcs
  rw [List.drop_left] at h
  split at h
  · rename_i hhead
    obtain rfl := Option.some.inj h
    obtain ⟨rest, rfl⟩ := List.head?_eq_some_iff.mp hhead
    exact ⟨hall, rest, rfl⟩
  · cases h

/-- What is never closed has a line end before every further quote. -/
theorem quoted_eq_none_iff {q : Char} {cs : List Char} :
    quoted q cs = none ↔ ∀ content after, cs = content ++ q :: after → '\n' ∈ content := by
  constructor
  · rintro h content after rfl
    by_contra hline
    -- the first of the further quotes closes
    have hmem : q ∈ content ++ [q] := by simp
    obtain ⟨front, back, heq, hfront⟩ := List.eq_append_cons_of_mem hmem
    have hcs : content ++ q :: after = front ++ q :: (back ++ after) := by
      rw [← List.cons_append, ← List.append_assoc, ← heq, List.append_assoc]
      rfl
    have hall : front.all (fun c => c ≠ q ∧ c ≠ '\n') = true := by
      rw [List.all_eq_true]
      intro c hc
      have hmem : c ∈ content ++ [q] := by
        rw [heq]
        exact List.mem_append_left _ hc
      have hne : c ≠ q := fun h => hfront (h ▸ hc)
      have hcontent : c ∈ content := by simpa [hne] using hmem
      have hline' : c ≠ '\n' := fun h => hline (h ▸ hcontent)
      simp [hne, hline']
    rw [hcs, Lexeme.quoted_stop hall] at h
    cases h
  · intro h
    by_contra hsome
    obtain ⟨content, hcontent⟩ := Option.ne_none_iff_exists'.mp hsome
    obtain ⟨hall, rest, rfl⟩ := quoted_eq_some hcontent
    exact (hall _ (h _ _ rfl)).2 rfl

/-! ## Symbols -/

theorem text_of_symbolAt {c : Char} {cs : List Char} {s : Symbol} {n : Nat} (h : symbolAt c cs = some (s, n)) :
    s.text.toList = c :: cs.take n := by
  unfold symbolAt at h
  split at h
  -- the symbols of two characters
  iterate 6
    · rename_i hhead
      obtain ⟨rest, rfl⟩ := List.head?_eq_some_iff.mp hhead
      obtain ⟨rfl, rfl⟩ := Prod.mk.inj (Option.some.inj h)
      rfl
  iterate 16
    · obtain ⟨rfl, rfl⟩ := Prod.mk.inj (Option.some.inj h)
      rfl
  · cases h

/-- The characters that are symbols by themselves. Each symbol begins with one of them, but for `!=`. -/
def symbolStarts : List Char :=
  ['+', '-', '*', '/', '%', '<', '>', '=', ':', ';', ',', '.', '(', ')', '[', ']']

theorem text_starts (s : Symbol) :
    (∃ c ∈ symbolStarts, ∃ cs, s.text.toList = c :: cs) ∨ s.text.toList = ['!', '='] := by
  cases s <;> simp [Symbol.text, symbolStarts]

theorem not_starts_of_symbolAt_eq_none {c : Char} {cs : List Char} (h : symbolAt c cs = none) :
    c ∉ symbolStarts ∧ ¬ (c = '!' ∧ cs.head? = some '=') := by
  unfold symbolAt at h
  split at h
  case h_23 => simp_all [symbolStarts]
  all_goals cases h

theorem symbolAt_eq_none {c : Char} {cs : List Char} (h : symbolAt c cs = none) (s : Symbol) :
    ¬ s.text.toList <+: c :: cs := by
  intro hs
  obtain ⟨hstart, hbang⟩ := not_starts_of_symbolAt_eq_none h
  rcases text_starts s with ⟨d, hd, ds, heq⟩ | heq
  · rw [heq, List.cons_prefix_cons] at hs
    exact hstart (hs.1 ▸ hd)
  · rw [heq, List.cons_prefix_cons] at hs
    obtain ⟨rfl, rest, rfl⟩ := hs
    exact hbang ⟨rfl, rfl⟩

/-! ## Pieces -/

theorem fits_quotation {q : Char} {kind : String → Kind} {flaw : Flaw} (cs : List Char)
    (hkind : ∀ content : List Char, (∀ c ∈ content, c ≠ q ∧ c ≠ '\n') →
      Spells (kind (String.ofList content)) (q :: content ++ [q]))
    (hflaw : (∀ content after, cs = content ++ q :: after → '\n' ∈ content) → Gap cs (.flaw flaw) [q]) :
    Fits (cs.drop (quotation q kind flaw cs).2) (quotation q kind flaw cs).1
      (q :: cs.take (quotation q kind flaw cs).2) := by
  unfold quotation
  cases hq : quoted q cs with
  | some content =>
    obtain ⟨hall, rest, rfl⟩ := quoted_eq_some hq
    have htake : (content ++ q :: rest).take (content.length + 1) = content ++ [q] := by
      rw [List.take_length_add_append]
      rfl
    dsimp only
    rw [htake]
    exact .inl ⟨_, rfl, hkind content hall⟩
  | none => exact .inr (hflaw (quoted_eq_none_iff.mp hq))

/-- Every piece that is cut fits its kind. -/
theorem fits_pieceAt (c : Char) (cs : List Char) :
    Fits (cs.drop (pieceAt c cs).2) (pieceAt c cs).1 (c :: cs.take (pieceAt c cs).2) := by
  unfold pieceAt
  split_ifs with hblank hline hblock hstring hphrase hword hdigit
  · exact .inr (.blank hblank)
  · obtain ⟨rfl, hhead⟩ := hline
    obtain ⟨rest, rfl⟩ := List.head?_eq_some_iff.mp hhead
    have hrun : ('/' :: rest).takeWhile (· ≠ '\n') = '/' :: rest.takeWhile (· ≠ '\n') := by simp
    dsimp only
    rw [hrun, List.length_cons, List.take_succ_cons, List.drop_succ_cons, take_takeWhile, drop_takeWhile]
    exact .inr (gap_lineComment rest)
  · obtain ⟨rfl, hhead⟩ := hblock
    obtain ⟨rest, rfl⟩ := List.head?_eq_some_iff.mp hhead
    have hcomment := gap_blockComment rest
    rw [List.drop_succ_cons, List.drop_zero]
    cases hn : commentLength rest with
    | some n =>
      rw [hn] at hcomment
      exact .inr hcomment
    | none =>
      rw [hn] at hcomment
      dsimp only
      rw [List.take_length, List.drop_length]
      exact .inr hcomment
  · subst hstring
    exact fits_quotation cs (fun _ => .string) .unterminatedString
  · subst hphrase
    exact fits_quotation cs (fun _ => .phrase) .unterminatedPhrase
  · obtain ⟨kind, hkind, hspells⟩ := spells_word hword cs
    exact .inl ⟨kind, hkind, hspells⟩
  · exact fits_number hdigit cs
  · cases hs : symbolAt c cs with
    | some p =>
      obtain ⟨s, n⟩ := p
      have htext := text_of_symbolAt hs
      dsimp only
      rw [← htext]
      exact .inl ⟨_, rfl, .symbol s⟩
    | none =>
      exact .inr (.unexpectedCharacter ⟨by simpa using hblank, by simpa using hword, by simpa using hdigit,
        hstring, hphrase, symbolAt_eq_none hs⟩)

theorem pieceAt_lineComment {content rest : List Char} (hline : ∀ c ∈ content, c ≠ '\n')
    (hend : rest.head? = none ∨ rest.head? = some '\n') :
    pieceAt '/' ('/' :: content ++ rest) = (.lineComment, ('/' :: content).length) := by
  have hrun : ('/' :: content ++ rest).takeWhile (· ≠ '\n') = '/' :: content :=
    takeWhile_run (by simpa using hline) (by rcases hend with h | h <;> simp [h])
  have hslash : Text.isBlank '/' = false := by decide
  unfold pieceAt
  rw [if_neg (by simp [hslash]), if_pos ⟨rfl, rfl⟩, hrun]

theorem pieceAt_blockComment {content : List Char} (hopen : ¬ ['*', '/'] <:+: content ++ ['*']) (rest : List Char) :
    pieceAt '/' ('*' :: content ++ ['*', '/'] ++ rest) = (.blockComment, ('*' :: content ++ ['*', '/']).length) := by
  have hslash : Text.isBlank '/' = false := by decide
  have hlength := commentLength_append hopen rest
  simp [pieceAt, hslash, hlength]

/-- Where a fragment stands, it is cut, unless a token is. -/
theorem pieceAt_of_gap {c : Char} {cs rest : List Char} {k : PieceKind} (h : Gap rest k (c :: cs)) :
    (∃ kind n, pieceAt c (cs ++ rest) = (.token kind, n)) ∨ pieceAt c (cs ++ rest) = (k, cs.length) := by
  generalize htext : c :: cs = text at h
  cases h with
  | blank hc =>
    obtain ⟨rfl, rfl⟩ := List.cons.inj htext
    exact .inr (Lexeme.pieceAt_blank hc _)
  | @lineComment content hline hend =>
    obtain ⟨rfl, rfl⟩ := List.cons.inj htext
    exact .inr (pieceAt_lineComment hline hend)
  | @blockComment content hopen =>
    obtain ⟨rfl, rfl⟩ := List.cons.inj htext
    exact .inr (pieceAt_blockComment hopen rest)
  | unexpectedCharacter hc =>
    obtain ⟨rfl, rfl⟩ := List.cons.inj htext
    have hslash : c ≠ '/' := by
      rintro rfl
      exact hc.symbol .slash ⟨rest, rfl⟩
    have hnone : symbolAt c rest = none := by
      by_contra hsome
      obtain ⟨⟨s, n⟩, hs⟩ := Option.ne_none_iff_exists'.mp hsome
      apply hc.symbol s
      rw [text_of_symbolAt hs, List.cons_prefix_cons]
      exact ⟨rfl, List.take_prefix n rest⟩
    right
    simp [pieceAt, hc.blank, hc.word, hc.digit, hc.string, hc.phrase, hslash, hnone]
  | invalidNumber hds hend hlarge =>
    subst htext
    have hc := hds.2 c (by simp)
    have hdigits : ∀ d ∈ cs, d.isDigit = true := fun d hd => hds.2 d (List.mem_cons_of_mem c hd)
    rw [Lexeme.pieceAt_number hc]
    rcases number_cases hc hdigits hend with ⟨kind, n, heq, -⟩ | ⟨heq, -⟩
    · exact .inl ⟨kind, n, heq⟩
    · exact .inr heq
  | unterminatedString h =>
    obtain ⟨rfl, rfl⟩ := List.cons.inj htext
    have hquote : Text.isBlank '"' = false := by decide
    right
    simp [pieceAt, hquote, quotation, quoted_eq_none_iff.mpr h]
  | unterminatedPhrase h =>
    obtain ⟨rfl, rfl⟩ := List.cons.inj htext
    have hquote : Text.isBlank '\'' = false := by decide
    right
    simp [pieceAt, hquote, quotation, quoted_eq_none_iff.mpr h]
  | unterminatedComment hrest hopen =>
    obtain ⟨rfl, rfl⟩ := List.cons.inj htext
    have hslash : Text.isBlank '/' = false := by decide
    subst hrest
    right
    simp [pieceAt, hslash, commentLength_eq_none_iff.mpr hopen]

end ObjectAction.Token
