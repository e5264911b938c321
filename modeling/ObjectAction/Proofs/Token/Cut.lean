/-
Cuts of a text: its pieces one after another, each of which fits the text after it. The tokens of a cut stand
where their pieces do, and so do its lexical errors.

Main statement: what is found in a text is one cut of it (`tokenize_lossless`). The tokens go forward and do
not overlap, each is spelled as its kind wants where it stands, and what is left between them can be cut in
no other way.
-/
import ObjectAction.Proofs.Token.Fragment

namespace ObjectAction

open Text (Mark)

/-! ## Bytes -/

namespace Text

theorem Mark.offset_past (m : Mark) (cs : List Char) :
    (m.past cs).offset = m.offset + (String.ofList cs).utf8ByteSize := by
  induction cs generalizing m with
  | nil => simp
  | cons c cs ih =>
    have hc : (m.after c).offset = m.offset + c.utf8Size := by
      unfold Mark.after
      split <;> rfl
    rw [Mark.past_cons, ih, hc, String.ofList_cons, String.utf8ByteSize_append, String.utf8ByteSize_singleton]
    omega

theorem utf8ByteSize_pos {cs : List Char} (h : cs ≠ []) : 0 < (String.ofList cs).utf8ByteSize := by
  obtain ⟨c, cs, rfl⟩ := List.exists_cons_of_ne_nil h
  have hc := c.utf8Size_pos
  rw [String.ofList_cons, String.utf8ByteSize_append, String.utf8ByteSize_singleton]
  omega

theorem dropBytes_append (before rest : List Char) :
    dropBytes (String.ofList before).utf8ByteSize (before ++ rest) = rest := by
  induction before with
  | nil => cases rest <;> simp [dropBytes]
  | cons c before ih =>
    have hc := c.utf8Size_pos
    rw [String.ofList_cons, String.utf8ByteSize_append, String.utf8ByteSize_singleton, List.cons_append, dropBytes,
      if_neg (by omega), Nat.add_sub_cancel_left, ih]

theorem takeBytes_append (inside rest : List Char) :
    takeBytes (String.ofList inside).utf8ByteSize (inside ++ rest) = inside := by
  induction inside with
  | nil => cases rest <;> simp [takeBytes]
  | cons c inside ih =>
    have hc := c.utf8Size_pos
    rw [String.ofList_cons, String.utf8ByteSize_append, String.utf8ByteSize_singleton, List.cons_append, takeBytes,
      if_neg (by omega), Nat.add_sub_cancel_left, ih]

/-- A text between two places is what stands there. -/
theorem slice_past (before inside after : List Char) :
    slice (before ++ inside ++ after) (Mark.start.past before).offset
      ((Mark.start.past before).past inside).offset = inside := by
  have hstart : (Mark.start.past before).offset = (String.ofList before).utf8ByteSize := by
    rw [Mark.offset_past]
    exact Nat.zero_add _
  unfold slice
  rw [Mark.offset_past _ inside, Nat.add_sub_cancel_left, hstart, List.append_assoc, dropBytes_append,
    takeBytes_append]

end Text

namespace Token

/-! ## Cuts -/

/-- The pieces of a text, each fitting what follows it. -/
inductive Cut : List Char → List Piece → Prop
  | done : Cut [] []
  | piece {p : Piece} {rest : List Char} {ps : List Piece} (hp : Fits rest p.kind p.text) (hrest : Cut rest ps) :
    Cut (p.text ++ rest) (p :: ps)

/-- The token that a piece is at `m`. -/
def Piece.tokenAt (m : Mark) (p : Piece) : Option Token :=
  match p.kind with
  | .token k => some ⟨k, String.ofList p.text, m, m.past p.text⟩
  | _ => none

/-- The lexical error that a piece is at `m`. -/
def Piece.errorAt (m : Mark) (p : Piece) : Option LexicalError :=
  match p.kind with
  | .flaw f => some ⟨f, m⟩
  | _ => none

/-- Pieces with the places where they begin, the first at `m`. -/
def placed (m : Mark) : List Piece → List (Mark × Piece)
  | [] => []
  | p :: ps => (m, p) :: placed (m.past p.text) ps

/-- The tokens among pieces, each where its piece stands. -/
def tokensAt (m : Mark) (ps : List Piece) : List Token := (placed m ps).filterMap fun q => q.2.tokenAt q.1

/-- The lexical errors among pieces, each where its piece stands. -/
def errorsAt (m : Mark) (ps : List Piece) : List LexicalError := (placed m ps).filterMap fun q => q.2.errorAt q.1

theorem tokensAt_cons (m : Mark) (p : Piece) (ps : List Piece) :
    tokensAt m (p :: ps) = (p.tokenAt m).toList ++ tokensAt (m.past p.text) ps := by
  simp only [tokensAt, placed, List.filterMap_cons]
  cases p.tokenAt m <;> rfl

theorem errorsAt_cons (m : Mark) (p : Piece) (ps : List Piece) :
    errorsAt m (p :: ps) = (p.errorAt m).toList ++ errorsAt (m.past p.text) ps := by
  simp only [errorsAt, placed, List.filterMap_cons]
  cases p.errorAt m <;> rfl

theorem ofPieces_eq (m : Mark) (ps : List Piece) :
    ofPieces m ps = tokensAt m ps ++ [atEnd (m.past (ps.flatMap Piece.text))] := by
  induction ps generalizing m with
  | nil => rfl
  | cons p ps ih =>
    rw [tokensAt_cons, List.flatMap_cons, Mark.past_append, ofPieces, Piece.tokenAt]
    cases p.kind <;> simp [ih]

theorem errorsOfPieces_eq (m : Mark) (ps : List Piece) : errorsOfPieces m ps = errorsAt m ps := by
  induction ps generalizing m with
  | nil => rfl
  | cons p ps ih =>
    rw [errorsAt_cons, errorsOfPieces, Piece.errorAt]
    cases p.kind <;> simp [ih]

/-! ## The pieces that are cut -/

theorem cut_pieces (cs : List Char) : Cut cs (pieces cs) := by
  fun_induction pieces cs with
  | case1 => exact .done
  | case2 c cs ih =>
    have h := Cut.piece (p := ⟨(pieceAt c cs).1, c :: cs.take (pieceAt c cs).2⟩) (fits_pieceAt c cs) ih
    rwa [List.cons_append, List.take_append_drop] at h

theorem Spells.ne_nil {kind : Kind} {text : List Char} (h : Spells kind text) : text ≠ [] := by
  cases h with
  | identifier hw hk =>
    obtain ⟨c, cs, rfl, -⟩ := hw
    simp
  | qualifier hw => simp
  | keyword hw =>
    rintro rfl
    have hword := (Lexeme.words_spell _ hw).1
    simp [Lexeme.isWord] at hword
  | closing hstart hgap hblank hword => simp [hgap]
  | integer hds hn => exact hds.1
  | real hwhole hfraction hexponent hsome hx => simp [hwhole.1]
  | string h => simp
  | phrase h => simp
  | symbol s => cases s <;> simp [Symbol.text]

theorem Fits.ne_nil {rest text : List Char} {k : PieceKind} (h : Fits rest k text) : text ≠ [] := by
  rcases h with ⟨kind, -, hspells⟩ | hgap
  · exact hspells.ne_nil
  · cases hgap <;> simp_all [IsDigits]

theorem Fits.spells {rest text : List Char} {kind : Kind} (h : Fits rest (.token kind) text) : Spells kind text := by
  rcases h with ⟨kind', heq, hspells⟩ | hgap
  · cases heq
    exact hspells
  · cases hgap

theorem Cut.flatMap_text {cs : List Char} {ps : List Piece} (h : Cut cs ps) : ps.flatMap Piece.text = cs := by
  induction h with
  | done => rfl
  | piece hp hrest ih => rw [List.flatMap_cons, ih]

theorem Cut.fits_of_append {cs : List Char} {before after : List Piece} {p : Piece}
    (h : Cut cs (before ++ p :: after)) : Fits (after.flatMap Piece.text) p.kind p.text := by
  induction before generalizing cs with
  | nil =>
    cases h with
    | piece hp hrest =>
      rw [hrest.flatMap_text]
      exact hp
  | cons q before ih =>
    cases h with
    | piece hq hrest => exact ih hrest

/-! ## Where tokens stand -/

theorem tokenAt_eq_some_iff {m : Mark} {p : Piece} {t : Token} :
    p.tokenAt m = some t ↔ ∃ k, p.kind = .token k ∧ t = ⟨k, String.ofList p.text, m, m.past p.text⟩ := by
  unfold Piece.tokenAt
  cases p.kind <;> simp [eq_comm]

/-- A token stands after all the pieces before its own. -/
theorem mem_tokensAt {m : Mark} {ps : List Piece} {t : Token} (h : t ∈ tokensAt m ps) :
    ∃ before p after, ps = before ++ p :: after ∧ p.tokenAt (m.past (before.flatMap Piece.text)) = some t := by
  induction ps generalizing m with
  | nil => cases h
  | cons p ps ih =>
    rw [tokensAt_cons, List.mem_append, Option.mem_toList] at h
    rcases h with h | h
    · exact ⟨[], p, ps, rfl, h⟩
    · obtain ⟨before, q, after, rfl, hq⟩ := ih h
      refine ⟨p :: before, q, after, rfl, ?_⟩
      rwa [List.flatMap_cons, Mark.past_append]

theorem offset_le_of_mem {m : Mark} {ps : List Piece} {t : Token} (h : t ∈ tokensAt m ps) :
    m.offset ≤ t.start.offset := by
  obtain ⟨before, p, after, -, hp⟩ := mem_tokensAt h
  obtain ⟨k, -, rfl⟩ := tokenAt_eq_some_iff.mp hp
  dsimp only
  rw [Mark.offset_past]
  omega

/-- Behind a piece, tokens begin later than the piece does. -/
theorem offset_lt_of_mem {m : Mark} {p : Piece} (hp : p.text ≠ []) {ps : List Piece} {t : Token}
    (h : t ∈ tokensAt (m.past p.text) ps) : m.offset < t.start.offset := by
  have hle := offset_le_of_mem h
  have hpos := Text.utf8ByteSize_pos hp
  rw [Mark.offset_past] at hle
  omega

theorem pairwise_tokensAt (m : Mark) (ps : List Piece) :
    (tokensAt m ps).Pairwise fun t u => t.stop.offset ≤ u.start.offset := by
  induction ps generalizing m with
  | nil => exact .nil
  | cons p ps ih =>
    rw [tokensAt_cons, List.pairwise_append]
    refine ⟨?_, ih _, ?_⟩
    · cases p.tokenAt m <;> simp
    · intro t ht u hu
      obtain ⟨k, -, rfl⟩ := tokenAt_eq_some_iff.mp (Option.mem_toList.mp ht)
      exact offset_le_of_mem hu

/-! ## No other cut -/

/-- Where a token begins, no fragment is cut, and the token is cut as it is. -/
theorem pieces_of_token {m : Mark} {c : Char} {cs rest : List Char} {kind : Kind} {ts : List Token}
    (h : tokensAt m (pieces (c :: (cs ++ rest))) = ⟨kind, String.ofList (c :: cs), m, m.past (c :: cs)⟩ :: ts) :
    pieces (c :: (cs ++ rest)) = ⟨.token kind, c :: cs⟩ :: pieces rest := by
  rw [pieces, tokensAt_cons] at h
  rw [pieces]
  have hdrop := List.take_append_drop (pieceAt c (cs ++ rest)).2 (cs ++ rest)
  generalize (pieceAt c (cs ++ rest)).1 = k, (cs ++ rest).take (pieceAt c (cs ++ rest)).2 = taken,
    (cs ++ rest).drop (pieceAt c (cs ++ rest)).2 = left at h hdrop ⊢
  cases htoken : Piece.tokenAt m ⟨k, c :: taken⟩ with
  | none =>
    rw [htoken] at h
    have hlt := offset_lt_of_mem (m := m) (p := ⟨k, c :: taken⟩) (by simp) (h ▸ List.mem_cons_self)
    exact absurd hlt (lt_irrefl _)
  | some t =>
    rw [htoken] at h
    obtain ⟨kind', hkind, rfl⟩ := tokenAt_eq_some_iff.mp htoken
    simp only [Option.toList_some, List.cons_append, List.nil_append, List.cons.injEq, Token.mk.injEq,
      String.ofList_inj, true_and] at h
    obtain ⟨⟨rfl, rfl, -⟩, -⟩ := h
    dsimp only at hkind
    rw [hkind, List.append_cancel_left hdrop]

/-- Where no token begins, a fragment is cut as it is. -/
theorem pieces_of_gap {m : Mark} {c : Char} {cs rest : List Char} {k : PieceKind} (h : Gap rest k (c :: cs))
    (hlater : ∀ t ∈ tokensAt m (pieces (c :: (cs ++ rest))), m.offset < t.start.offset) :
    pieces (c :: (cs ++ rest)) = ⟨k, c :: cs⟩ :: pieces rest := by
  rw [pieces] at hlater ⊢
  rcases pieceAt_of_gap h with ⟨kind, n, heq⟩ | heq
  · rw [heq, tokensAt_cons] at hlater
    exact absurd (hlater _ List.mem_cons_self) (lt_irrefl _)
  · rw [heq]
    simp

/-- Of a text there is one cut with given tokens. -/
theorem Cut.eq_pieces {cs : List Char} {ps : List Piece} (h : Cut cs ps) (m : Mark)
    (htokens : tokensAt m ps = tokensAt m (pieces cs)) : ps = pieces cs := by
  induction h generalizing m with
  | done => rw [pieces]
  | @piece p rest ps hp hrest ih =>
    obtain ⟨k, text⟩ := p
    have hne : text ≠ [] := hp.ne_nil
    obtain ⟨c, cs, rfl⟩ := List.exists_cons_of_ne_nil hne
    dsimp only at hp htokens ⊢
    rw [List.cons_append] at htokens ⊢
    have hfirst : pieces (c :: (cs ++ rest)) = ⟨k, c :: cs⟩ :: pieces rest := by
      rw [tokensAt_cons] at htokens
      -- both cuts have a token here or neither has, by where their first tokens begin
      rcases hp with ⟨kind, rfl, -⟩ | hgap
      · exact pieces_of_token htokens.symm
      · apply pieces_of_gap hgap (m := m)
        have hnone : Piece.tokenAt m ⟨k, c :: cs⟩ = none := by cases hgap <;> rfl
        rw [← htokens, hnone]
        intro t ht
        exact offset_lt_of_mem (p := ⟨k, c :: cs⟩) hne ht
    rw [hfirst, tokensAt_cons, tokensAt_cons] at htokens
    rw [hfirst, ih _ (List.append_cancel_left htokens)]

/-! ## What is found in a text -/

/-- The tokens `ts` and the end, and the pieces `ps`, account for all of a text and of what was found in it. -/
structure Accounts (text : String) (found : Lexing) (ts : List Token) (ps : List Piece) : Prop where
  /-- Behind the tokens stands the end of input, where the text ends. -/
  ending : ∃ m : Mark, m.offset = text.utf8ByteSize ∧ found.tokens = ts ++ [atEnd m]
  notEnd : ∀ t ∈ ts, t.kind ≠ .endOfInput
  nonempty : ∀ t ∈ ts, t.start.offset < t.stop.offset ∧ t.stop.offset ≤ text.utf8ByteSize
  forward : ts.Pairwise fun t u => t.stop.offset ≤ u.start.offset
  spelled : ∀ t ∈ ts, Spells t.kind (Text.slice text.toList t.start.offset t.stop.offset)
  /-- The pieces are a cut with these tokens, and its flaws are the errors. -/
  cut : Cut text.toList ps
  tokens : tokensAt .start ps = ts
  errors : errorsAt .start ps = found.errors
  /-- Between the tokens no other cut is one. -/
  unique : ∀ qs, Cut text.toList qs → tokensAt .start qs = ts → qs = ps

/-- A token of a cut is spelled as its kind wants, and stands where the text has that spelling. -/
theorem Cut.token {cs : List Char} {ps : List Piece} (h : Cut cs ps) {t : Token} (ht : t ∈ tokensAt .start ps) :
    ∃ before inside after, cs = before ++ inside ++ after ∧ Spells t.kind inside ∧ t.lexeme = String.ofList inside ∧
      t.start = Mark.start.past before ∧ t.stop = (Mark.start.past before).past inside := by
  obtain ⟨before, p, after, rfl, hp⟩ := mem_tokensAt ht
  obtain ⟨k, hk, rfl⟩ := tokenAt_eq_some_iff.mp hp
  have hfits := h.fits_of_append
  rw [hk] at hfits
  refine ⟨before.flatMap Piece.text, p.text, after.flatMap Piece.text, ?_, hfits.spells, rfl, rfl, rfl⟩
  rw [← h.flatMap_text, List.flatMap_append, List.flatMap_cons, List.append_assoc]

theorem Cut.kind_ne_endOfInput {cs : List Char} {ps : List Piece} (h : Cut cs ps) {t : Token}
    (ht : t ∈ tokensAt .start ps) : t.kind ≠ .endOfInput := by
  intro hend
  obtain ⟨_, _, _, -, hspells, -⟩ := h.token ht
  rw [hend] at hspells
  cases hspells

/-- What the text has where a token stands is the spelling of the token. -/
theorem Cut.slice_token {cs : List Char} {ps : List Piece} (h : Cut cs ps) {t : Token}
    (ht : t ∈ tokensAt .start ps) : Spells t.kind (Text.slice cs t.start.offset t.stop.offset) ∧
      t.lexeme = String.ofList (Text.slice cs t.start.offset t.stop.offset) := by
  obtain ⟨before, inside, after, rfl, hspells, hlexeme, hstart, hstop⟩ := h.token ht
  rw [hstart, hstop, Text.slice_past]
  exact ⟨hspells, hlexeme⟩

theorem tokens_tokenize (text : String) : (tokenize text).tokens =
    tokensAt .start (pieces text.toList) ++ [atEnd (Mark.start.past text.toList)] := by
  have h := ofPieces_eq .start (pieces text.toList)
  rwa [flatMap_pieces] at h

/-- Nothing of a text is lost, and nothing is found in it that is not there. -/
theorem tokenize_lossless (text : String) : ∃ ts ps, Accounts text (tokenize text) ts ps := by
  have hcut := cut_pieces text.toList
  refine ⟨tokensAt .start (pieces text.toList), pieces text.toList, ?_⟩
  constructor
  case ending =>
    refine ⟨Mark.start.past text.toList, ?_, tokens_tokenize text⟩
    rw [Mark.offset_past, String.ofList_toList]
    exact Nat.zero_add _
  case notEnd => exact fun t ht => hcut.kind_ne_endOfInput ht
  case nonempty =>
    intro t ht
    obtain ⟨before, inside, after, htext, hspells, -, hstart, hstop⟩ := hcut.token ht
    have hpos := Text.utf8ByteSize_pos hspells.ne_nil
    have hsize : text.utf8ByteSize = (String.ofList (before ++ inside ++ after)).utf8ByteSize := by
      rw [← htext, String.ofList_toList]
    have hzero : Mark.start.offset = 0 := rfl
    rw [String.ofList_append, String.ofList_append, String.utf8ByteSize_append, String.utf8ByteSize_append] at hsize
    rw [hstart, hstop, Mark.offset_past _ inside, Mark.offset_past]
    omega
  case forward => exact pairwise_tokensAt _ _
  case spelled => exact fun t ht => (hcut.slice_token ht).1
  case cut => exact hcut
  case tokens => rfl
  case errors => exact (errorsOfPieces_eq _ _).symm
  case unique => exact fun qs hqs htokens => hqs.eq_pieces .start htokens

end Token

end ObjectAction
