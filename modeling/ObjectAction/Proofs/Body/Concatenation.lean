/-
Texts one behind another. The statements of a text are read as before where the text stands in a longer one, and
reading goes on behind them.

Main statement: what is read from two texts with a line end between them is what is read from each of them
(`parse_concat`).
-/
import ObjectAction.Proofs.Body.Extents
import ObjectAction.Proofs.Body.Parallel
import ObjectAction.Proofs.Body.Soundness
import ObjectAction.Proofs.Token.Seam

namespace ObjectAction

open Text (Mark Shift)

namespace Parser

variable {F : Frame} {n : Nat}

/-! ## Whole bodies -/

theorem statementsUpTo_succ (inner : Parser Statement) (terminators : List Keyword) (n : Nat) (s : Stream) :
    statementsUpTo inner terminators (n + 1) s =
      if endsBlock terminators s.current.kind then .ok ([], s)
      else if isSymbol .semicolon s.current.kind then statementsUpTo inner terminators n s.tail
      else (do
        let statement ← inner
        return statement :: (← statementsUpTo inner terminators n) : Parser (List Statement)) s := by
  rw [statementsUpTo]
  change (if endsBlock terminators s.current.kind then Pure.pure [] else _ : Parser (List Statement)) s = _
  split
  · rfl
  · change (eat (isSymbol .semicolon) s >>= fun x => (if x.1 then statementsUpTo inner terminators n
      else inner >>= fun st => statementsUpTo inner terminators n >>= fun rest => Pure.pure (st :: rest)) x.2) = _
    rw [eat_eq]
    split <;> rfl

/-- A pass ends at a terminator, skips a semicolon, or reads a statement. -/
theorem statementsUpTo_cases {inner : Parser Statement} {terminators : List Keyword} {n : Nat} {s s' : Stream}
    {sts : List Statement} (h : statementsUpTo inner terminators (n + 1) s = .ok (sts, s')) :
    (endsBlock terminators s.current.kind = true ∧ sts = [] ∧ s' = s) ∨
    (endsBlock terminators s.current.kind = false ∧ isSymbol .semicolon s.current.kind = true ∧
      statementsUpTo inner terminators n s.tail = .ok (sts, s')) ∨
    (endsBlock terminators s.current.kind = false ∧ isSymbol .semicolon s.current.kind = false ∧
      ∃ st s₁ rest, inner s = .ok (st, s₁) ∧ statementsUpTo inner terminators n s₁ = .ok (rest, s') ∧
        sts = st :: rest) := by
  rw [statementsUpTo_succ] at h
  cases hends : endsBlock terminators s.current.kind with
  | true =>
    rw [hends, if_pos rfl] at h
    cases h
    exact .inl ⟨rfl, rfl, rfl⟩
  | false =>
    rw [hends, if_neg Bool.false_ne_true] at h
    cases hsemicolon : isSymbol .semicolon s.current.kind with
    | true =>
      rw [hsemicolon, if_pos rfl] at h
      exact .inr (.inl ⟨rfl, rfl, h⟩)
    | false =>
      rw [hsemicolon, if_neg Bool.false_ne_true] at h
      obtain ⟨st, s₁, hst, h⟩ := ok_of_bind h
      obtain ⟨rest, s₂, hrest, h⟩ := ok_of_bind h
      cases h
      exact .inr (.inr ⟨rfl, rfl, st, s₁, rest, hst, hrest, rfl⟩)

/-- With `m` passes from `t` on, the statements `sts` are read first, and then what is read with `m'` passes from `t'`
on. -/
def ReadsFirst (inner : Parser Statement) (t : Stream) (m : Nat) (sts : List Statement) (t' : Stream) (m' : Nat) :
    Prop :=
  ∀ rest r, statementsUpTo inner [] m' t' = .ok (rest, r) → statementsUpTo inner [] m t = .ok (sts ++ rest, r)

/-- The statements of a text, where the text stands inside a longer one: reading goes on behind them. -/
theorem readsFirst_of_statements {inner inner' : Parser Statement}
    (hinner : ∀ n, Runs F n true inner inner' fun st st' => st' = st.moved F.shift) {s s' : Stream}
    (hs : s.ReadsInside F) (hn : s.tokens.length ≤ n) {sts : List Statement}
    (h : statementsUpTo inner [] n s = .ok (sts, s')) :
    s'.ReadsInside F ∧ s'.tokens = [] ∧ ∀ t m, s.Carries F t → t.tokens.length ≤ m →
      ∃ t' m', s'.Carries F t' ∧ t'.tokens.length ≤ m' ∧
        ReadsFirst inner' t m (sts.map (Statement.moved F.shift)) t' m' := by
  -- Every pass takes as many tokens from one stream as from the other, so that neither runs out of passes.
  induction n generalizing s sts with
  | zero =>
    have hnil : s.tokens = [] := List.length_eq_zero_iff.mp (Nat.le_zero.mp hn)
    cases h
    exact ⟨hs, hnil, fun t m ht hm => ⟨t, m, ht, hm, fun rest r hrest => hrest⟩⟩
  | succ n ih =>
    have hne : endsBlock [] s.current.kind = false → s.tokens ≠ [] := by
      intro hends
      refine hs.tokens_ne_nil fun hend => ?_
      rw [hend] at hends
      cases hends
    rcases statementsUpTo_cases h with ⟨hends, rfl, rfl⟩ | ⟨hends, hsemicolon, hrest⟩ |
      ⟨hends, hsemicolon, st, s₁, rest, hst, hrest, rfl⟩
    · have hnil := hs.genuine.tokens_eq_nil (kind_of_endsBlock hends)
      exact ⟨hs, hnil, fun t m ht hm => ⟨t, m, ht, hm, fun rest r hrest => hrest⟩⟩
    · have hpos := List.length_pos_iff.mpr (hne hends)
      have htail : s.tail.tokens.length = s.tokens.length - 1 := by rw [s.tokens_tail, List.length_tail]
      obtain ⟨hs', hnil, hrun⟩ := ih hs.tail (by omega) hrest
      refine ⟨hs', hnil, fun t m ht hm => ?_⟩
      have hkind := ht.kind (hne hends)
      have ht₁ := ht.tail (hne hends)
      have hlength := ht.length_tokens
      have hlength₁ := ht₁.length_tokens
      obtain ⟨m, rfl⟩ := Nat.exists_eq_add_of_lt (show 0 < m by omega)
      obtain ⟨t', m', ht', hm', hreads⟩ := hrun t.tail (0 + m) ht₁ (by omega)
      refine ⟨t', m', ht', hm', fun rest r hr => ?_⟩
      rw [statementsUpTo_succ, hkind, hends, hsemicolon]
      exact hreads rest r hr
    · obtain ⟨hs₁, -, hcloses, _, rfl, hrun₁⟩ := hinner (n + 1) s hn hs st s₁ hst
      have hshorter := (hcloses rfl).2
      obtain ⟨hs', hnil, hrun⟩ := ih hs₁ (by omega) hrest
      refine ⟨hs', hnil, fun t m ht hm => ?_⟩
      have hkind := ht.kind (hne hends)
      obtain ⟨t₁, hst', ht₁⟩ := hrun₁ t ht (.inl rfl)
      have hlength := ht.length_tokens
      have hlength₁ := ht₁.length_tokens
      obtain ⟨m, rfl⟩ := Nat.exists_eq_add_of_lt (show 0 < m by omega)
      obtain ⟨t', m', ht', hm', hreads⟩ := hrun t₁ (0 + m) ht₁ (by omega)
      refine ⟨t', m', ht', hm', fun others r hr => ?_⟩
      rw [statementsUpTo_succ, hkind, hends, hsemicolon]
      exact (bind_of_ok hst').trans (bind_of_ok (hreads others r hr))

theorem statementsUpTo_end {inner : Parser Statement} {terminators : List Keyword} {t : Stream} (hnil : t.tokens = [])
    (hfinal : t.final.kind = .endOfInput) (m : Nat) : statementsUpTo inner terminators m t = .ok ([], t) := by
  cases m with
  | zero => rfl
  | succ m =>
    have hkind : t.current.kind = .endOfInput := by
      unfold Stream.current
      rw [hnil]
      exact hfinal
    rw [statementsUpTo_succ, hkind]
    rfl

theorem body_eq (s : Stream) : body s =
    (statementsUpTo (statementWithin (s.tokens.length + 1)) [] s.tokens.length s >>= fun r =>
      .ok (⟨r.2.extentFrom s.current.start, .mk (r.2.extentFrom s.current.start) r.1⟩, r.2)) := by
  change (statementsUpTo (statementWithin (s.tokens.length + 1)) [] s.tokens.length s >>= _ : Except _ _) >>= _ = _
  cases statementsUpTo (statementWithin (s.tokens.length + 1)) [] s.tokens.length s with
  | error e => rfl
  | ok r => rfl

end Parser

/-! ## Whole texts -/

/-- All tokens of a text with the line end that is added to it. -/
def Stream.ofText (text : String) : Stream := .ofTokens (text ++ "\n").toList (tokenize (text ++ "\n")).tokens

/-- The statements of a text are read with the tokens of the text as bound. -/
theorem statements_of_parse {text : String} {b : Body} (h : parse text = .ok b) :
    ∃ s', Parser.statementsUpTo (Parser.statementWithin ((Stream.ofText text).tokens.length + 1)) []
      (Stream.ofText text).tokens.length (Stream.ofText text) = .ok (b.block.statements, s') := by
  obtain ⟨s', hbody⟩ := body_of_parseTokens h
  change Parser.body (Stream.ofText text) = _ at hbody
  rw [Parser.body_eq] at hbody
  cases hrun : Parser.statementsUpTo (Parser.statementWithin ((Stream.ofText text).tokens.length + 1)) []
      (Stream.ofText text).tokens.length (Stream.ofText text) with
  | error e =>
    rw [hrun] at hbody
    cases hbody
  | ok r =>
    rw [hrun] at hbody
    cases hbody
    exact ⟨r.2, rfl⟩

theorem parse_of_statements {text : String} {sts : List Statement} {s' : Stream}
    (h : Parser.statementsUpTo (Parser.statementWithin ((Stream.ofText text).tokens.length + 1)) []
      (Stream.ofText text).tokens.length (Stream.ofText text) = .ok (sts, s')) :
    ∃ b, parse text = .ok b ∧ b.block.statements = sts := by
  let x := s'.extentFrom (Stream.ofText text).current.start
  refine ⟨⟨x, .mk x sts⟩, ?_, rfl⟩
  change (Prod.fst <$> Parser.body (Stream.ofText text)) = _
  rw [Parser.body_eq, h]
  rfl

theorem Statement.Derives.getLast_eq {s : Statement} {w : List Terminal} (h : s.Derives w) :
    w.getLast? = some (.symbol .semicolon) := by
  cases h <;> simp [List.getLast?_cons]

/-- What is read ends with a semicolon, if it is not empty. -/
theorem Statement.DerivesAll.getLast_eq : ∀ {sts : List Statement} {w : List Terminal}, Statement.DerivesAll sts w →
    ∀ x ∈ w.getLast?, x = .symbol .semicolon
  | _, _, .nil => by simp
  | _, _, .semicolon (w := w) h => by
    have ih := h.getLast_eq
    intro x hx
    rw [List.getLast?_cons] at hx
    cases hlast : w.getLast? with
    | none => simpa [hlast] using hx.symm
    | some y => exact ih x (by simpa [hlast] using hx)
  | _, _, .cons (w := w) hs hr => by
    have ih := hr.getLast_eq
    intro x hx
    rw [List.getLast?_append, hs.getLast_eq] at hx
    cases hlast : w.getLast? with
    | none => simpa [hlast] using hx.symm
    | some y => exact ih x (by simpa [hlast] using hx)

namespace Stream

theorem tokens_ofText (text : String) :
    (ofText text).tokens = Token.tokensAt .start (Token.pieces (text.toList ++ ['\n'])) := by
  unfold ofText ofTokens
  rw [Token.tokens_tokenize, List.dropLast_concat, String.toList_append]
  rfl

theorem readsInside_ofText (text : String) (F : Frame) (h : F.inside = (text ++ "\n").toList) :
    (ofText text).ReadsInside F :=
  ⟨placed_ofTokens _, genuine_ofTokens _, h.symm⟩

/-- A text that can be read ends with a semicolon, and so with no `end` that could go on. -/
theorem noOpenEnd_ofText {text : String} {b : Body} (h : parse text = .ok b) :
    Token.NoOpenEnd (ofText text).tokens := by
  obtain ⟨s', hbody⟩ := body_of_parseTokens h
  obtain ⟨w, hw, hmatches⟩ := Parser.derives_of_body (genuine_ofTokens _) hbody
  have hreverse : List.Forall₂ _ w.reverse (ofText text).tokens.reverse := List.forall₂_reverse_iff.mpr hmatches
  obtain ⟨extent, block⟩ := b
  cases hw with
  | mk hderives =>
    have hlast := hderives.getLast_eq
    intro t ht
    rw [List.getLast?_eq_head?_reverse] at ht hlast
    -- the last terminal matches the last token
    generalize w.reverse = u, (ofText text).tokens.reverse = ts at hreverse ht hlast
    cases hreverse with
    | nil => cases ht
    | @cons x t' u ts hx _ =>
      obtain rfl : t' = t := by simpa using ht
      obtain rfl : x = .symbol .semicolon := hlast x rfl
      have hkind : t'.kind = .symbol .semicolon := hx
      rw [hkind]
      nofun

end Stream

/-- The shift of what comes behind a text and a line end. -/
theorem Text.Shift.behind_line (text : String) :
    Shift.behind (text ++ "\n").toList = ⟨text.utf8ByteSize + 1, text.toList.count '\n' + 1⟩ := by
  have hline : "\n".utf8ByteSize = 1 := rfl
  simp [Shift.behind, hline]

theorem Text.Mark.column_behind_line (text : String) : (Mark.behind (text ++ "\n").toList).column = 0 := by
  simp [Mark.behind]

/-- The place where a text begins that follows another one and a line end. -/
theorem Text.Mark.start_past_line (text : String) :
    Mark.start.past (text.toList ++ ['\n']) = Mark.start.moved (.behind (text ++ "\n").toList) := by
  have hbehind := Mark.behind_append (Mark.column_behind_line text) []
  rw [List.append_nil, String.toList_append] at hbehind
  rw [Mark.start_past, String.toList_append]
  exact hbehind

theorem Token.tokensAt_moved (d : Shift) (m : Mark) (ps : List Piece) :
    tokensAt (m.moved d) ps = (tokensAt m ps).map (Token.moved d) := by
  induction ps generalizing m with
  | nil => rfl
  | cons p ps ih =>
    rw [tokensAt_cons, tokensAt_cons, List.map_append, Mark.moved_past, ih]
    congr 1
    unfold Piece.tokenAt
    cases p.kind with
    | token k =>
      simp only [Option.toList_some, List.map_cons, List.map_nil, Token.moved, Mark.moved_past]
    | _ => rfl

/-- The tokens of two texts one behind the other. -/
theorem tokens_append {a b : String} (hclosed : ∀ e ∈ (tokenize a).errors, e.flaw ≠ .unterminatedComment)
    (hopen : Token.NoOpenEnd (Stream.ofText a).tokens) :
    (Stream.ofText (a ++ "\n" ++ b)).tokens = (Stream.ofText a).tokens ++
      (Stream.ofText b).tokens.map (Token.moved (.behind (a ++ "\n").toList)) := by
  have hpieces := Token.kind_ne_of_errors hclosed
  have hfirst : (Stream.ofText a).tokens = Token.tokensAt .start (Token.pieces a.toList) := by
    rw [Stream.tokens_ofText, Token.tokensAt_seam hpieces (.inl rfl), Token.pieces]
    exact List.append_nil _
  have htext : (a ++ "\n" ++ b).toList ++ ['\n'] = a.toList ++ '\n' :: (b.toList ++ ['\n']) := by simp
  rw [hfirst] at hopen ⊢
  rw [Stream.tokens_ofText, Stream.tokens_ofText, htext, Token.tokensAt_seam hpieces (.inr hopen),
    Mark.start_past_line, Token.tokensAt_moved]

/-- The first of two texts. -/
def Frame.first (a b : String) : Frame where
  before := []
  inside := (a ++ "\n").toList
  after := (b ++ "\n").toList
  following := (Stream.ofText b).tokens.map (Token.moved (.behind (a ++ "\n").toList))
  lines := rfl

/-- The second of two texts. -/
def Frame.second (a b : String) : Frame where
  before := (a ++ "\n").toList
  inside := (b ++ "\n").toList
  after := []
  following := []
  lines := Mark.column_behind_line a

theorem Text.Mark.In.offset_le {source : List Char} {m : Mark} (h : m.In source) :
    m.offset ≤ (String.ofList source).utf8ByteSize := by
  obtain ⟨before, after, rfl, rfl⟩ := h
  rw [String.ofList_append, String.utf8ByteSize_append]
  exact Nat.le_add_right _ _

namespace Stream

variable {a b : String}

/-- Both texts are read as the first one would be. -/
theorem carries_first (htokens : (ofText (a ++ "\n" ++ b)).tokens = (ofText a).tokens ++
    (ofText b).tokens.map (Token.moved (.behind (a ++ "\n").toList))) :
    (ofText a).Carries (.first a b) (ofText (a ++ "\n" ++ b)) where
  tokens := by
    rw [htokens]
    congr 1
    exact (List.map_id _).symm
  source := by
    show (a ++ "\n" ++ b ++ "\n").toList = [] ++ (a ++ "\n").toList ++ (b ++ "\n").toList
    simp
  final := (genuine_ofTokens _).final
  previous := .inl rfl

/-- Behind the first text, the rest is read as the second text would be. -/
theorem carries_second {s t : Stream} (hs : s.ReadsInside (.first a b)) (hnil : s.tokens = [])
    (h : s.Carries (.first a b) t) : (ofText b).Carries (.second a b) t where
  tokens := by
    rw [h.tokens, hnil]
    exact (List.append_nil _).symm
  source := by
    rw [h.source]
    simp [Frame.whole, Frame.first, Frame.second]
  final := h.final
  previous := by
    refine .inr ⟨rfl, ?_⟩
    show t.previous.offset ≤ (String.ofList (a ++ "\n").toList).utf8ByteSize
    rcases h.previous with hprevious | ⟨-, hle⟩
    · have hle : s.previous.offset ≤ (String.ofList (a ++ "\n").toList).utf8ByteSize := by
        rcases hs.placed.previous with hzero | hin
        · omega
        · rw [hs.source] at hin
          exact hin.offset_le
      rw [hprevious]
      exact hle
    · exact hle.trans (Nat.zero_le _)

end Stream

/-- Texts that can be read can be read one behind the other. The statements of the first text stay as they are, and
those of the second one follow, moved by the bytes and lines of the first text and of the line end between them. A
comment that is never closed would hide the second text. -/
theorem parse_concat {a b : String} {first second : Body} (ha : parse a = .ok first) (hb : parse b = .ok second)
    (hclosed : ∀ e ∈ (tokenize a).errors, e.flaw ≠ .unterminatedComment) :
    ∃ both, parse (a ++ "\n" ++ b) = .ok both ∧ both.block.statements = first.block.statements ++
      second.block.statements.map (Statement.moved ⟨a.utf8ByteSize + 1, a.toList.count '\n' + 1⟩) := by
  have htokens := tokens_append (b := b) hclosed (Stream.noOpenEnd_ofText ha)
  have hlength := congrArg List.length htokens
  rw [List.length_append, List.length_map] at hlength
  have hinner : ∀ (F : Frame) (k : Nat), k ≤ (Stream.ofText (a ++ "\n" ++ b)).tokens.length → ∀ n,
      Parser.Runs F n true (Parser.statementWithin (k + 1))
        (Parser.statementWithin ((Stream.ofText (a ++ "\n" ++ b)).tokens.length + 1))
        fun st st' => st' = st.moved F.shift :=
    fun F k hk n => Parser.runs_statementWithin (Nat.succ_le_succ hk)
  obtain ⟨s₁, hfirst⟩ := statements_of_parse ha
  obtain ⟨s₂, hsecond⟩ := statements_of_parse hb
  -- first the statements of `a`, then those of `b` with the passes that are left, then the end of input
  obtain ⟨hinside, hnil, hrun⟩ := Parser.readsFirst_of_statements (hinner (.first a b) _ (by omega))
    (Stream.readsInside_ofText a _ rfl) le_rfl hfirst
  obtain ⟨t₁, m₁, ht₁, hm₁, hreads₁⟩ := hrun _ _ (Stream.carries_first htokens) le_rfl
  obtain ⟨-, hnil', hrun'⟩ := Parser.readsFirst_of_statements (hinner (.second a b) _ (by omega))
    (Stream.readsInside_ofText b _ rfl) le_rfl hsecond
  obtain ⟨t₂, m₂, ht₂, -, hreads₂⟩ := hrun' _ _ (Stream.carries_second hinside hnil ht₁) hm₁
  have hend : t₂.tokens = [] := by
    rw [ht₂.tokens, hnil']
    rfl
  have hboth := hreads₁ _ _ (hreads₂ _ _ (Parser.statementsUpTo_end hend ht₂.final m₂))
  obtain ⟨both, hparse, hstatements⟩ := parse_of_statements hboth
  refine ⟨both, hparse, ?_⟩
  have hzero : (Frame.first a b).shift = ⟨0, 0⟩ := rfl
  have hshift : (Frame.second a b).shift = ⟨a.utf8ByteSize + 1, a.toList.count '\n' + 1⟩ := Shift.behind_line a
  rw [hstatements, hzero, hshift, ← Statement.allMoved_eq_map ⟨0, 0⟩, Statement.allMoved_zero, List.append_nil]

/-- A loop, a quote that is never closed and a comment, with a letter of two bytes. -/
def watchText : String := "while (true)\n  break;\nend while; ' // ü"

/-- A loop over instances. -/
def countText : String := "for each d in ds\n  n = d.age;\nend for;"

/-- The second loop moves by three lines, and by the bytes of the first text. -/
theorem parse_concat_watchText : ∃ first second both, parse watchText = .ok first ∧ parse countText = .ok second ∧
    (∀ e ∈ (tokenize watchText).errors, e.flaw ≠ .unterminatedComment) ∧
    parse (watchText ++ "\n" ++ countText) = .ok both ∧ both.block.statements =
      first.block.statements ++ second.block.statements.map (Statement.moved ⟨41, 3⟩) ∧
    second.block.statements.map (fun st => (st.moved ⟨41, 3⟩).extent) =
      [⟨⟨41, 4, 0⟩, ⟨79, 6, 8⟩, "for each d in ds\n  n = d.age;\nend for;"⟩] := by
  have hfirst : (parse watchText).toOption.isSome = true := by decide +kernel
  have hsecond : (parse countText).toOption.map
      (fun b => b.block.statements.map fun st => (st.moved ⟨41, 3⟩).extent) =
      some [⟨⟨41, 4, 0⟩, ⟨79, 6, 8⟩, "for each d in ds\n  n = d.age;\nend for;"⟩] := by
    decide +kernel
  have hclosed : ∀ e ∈ (tokenize watchText).errors, e.flaw ≠ .unterminatedComment := by decide +kernel
  cases h₁ : parse watchText with
  | error e =>
    rw [h₁] at hfirst
    cases hfirst
  | ok first =>
    cases h₂ : parse countText with
    | error e =>
      rw [h₂] at hsecond
      cases hsecond
    | ok second =>
      rw [h₂] at hsecond
      obtain ⟨both, hboth, hstatements⟩ := parse_concat h₁ h₂ hclosed
      have hshift : (⟨watchText.utf8ByteSize + 1, watchText.toList.count '\n' + 1⟩ : Shift) = ⟨41, 3⟩ := by
        decide +kernel
      rw [hshift] at hstatements
      exact ⟨first, second, both, rfl, rfl, hclosed, hboth, hstatements, Option.some.inj hsecond⟩

end ObjectAction
