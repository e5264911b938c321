/-
Where tokens and lexical errors stand. A place says three things: how many bytes lie before it, which number its
line has, and how many characters of this line lie before it. That a place is exact says all three of the text
itself (`Mark.Exact`), whatever was passed on the way: comments, texts in quotes, closing keywords over several
lines, and flaws.

Main statement: the places of all tokens and errors are exact, and an error stands where the first of its
characters does (`tokenize_exact`).
-/
import ObjectAction.Proofs.Body.Extents

namespace ObjectAction

open Text (Mark)

namespace Text

/-- The text before a byte offset. -/
def before (text : String) (offset : Nat) : List Char := takeBytes offset text.toList

/-- The place stands between two characters of the text. Its line has as many lines before it as there are line
feeds before the place, and its column counts the characters behind the last of them. -/
structure Mark.Exact (text : String) (m : Mark) : Prop where
  boundary : (String.Pos.Raw.mk m.offset).IsValid text
  line : m.line = 1 + (before text m.offset).count '\n'
  column : m.column = ((before text m.offset).reverse.takeWhile (· ≠ '\n')).length

theorem before_behind {text : String} {cs rest : List Char} (h : text.toList = cs ++ rest) :
    before text (Mark.behind cs).offset = cs := by
  unfold before
  rw [h]
  exact takeBytes_append cs rest

/-- The place behind the first characters of a text is exact. -/
theorem Mark.exact_behind {text : String} {cs rest : List Char} (h : text.toList = cs ++ rest) :
    (Mark.behind cs).Exact text := by
  refine ⟨?_, ?_, ?_⟩
  · rw [String.Pos.Raw.isValid_iff_exists_append]
    refine ⟨String.ofList cs, String.ofList rest, ?_, rfl⟩
    rw [← String.ofList_append, ← h, String.ofList_toList]
  · rw [before_behind h]
    exact Nat.add_comm _ _
  · rw [before_behind h]
    rfl

theorem Mark.offset_behind_le {text : String} {cs rest : List Char} (h : text.toList = cs ++ rest) :
    (Mark.behind cs).offset ≤ text.utf8ByteSize := by
  have hsize : text.utf8ByteSize = (String.ofList cs).utf8ByteSize + (String.ofList rest).utf8ByteSize := by
    rw [← String.utf8ByteSize_append, ← String.ofList_append, ← h, String.ofList_toList]
  rw [hsize]
  exact Nat.le_add_right _ _

end Text

namespace Token

/-- The piece stands at the place: up to there goes the text before it, and then come its characters. -/
structure Stands (text : String) (m : Mark) (p : Piece) : Prop where
  exact : m.Exact text
  nonempty : p.text ≠ []
  here : ∃ after, text.toList = Text.before text m.offset ++ p.text ++ after ∧ Fits after p.kind p.text

/-- A piece of a cut is placed behind the texts of the pieces before it. -/
theorem mem_placed {m : Mark} {ps : List Piece} {q : Mark × Piece} (h : q ∈ placed m ps) :
    ∃ front back, ps = front ++ q.2 :: back ∧ q.1 = m.past (front.flatMap Piece.text) := by
  induction ps generalizing m with
  | nil => cases h
  | cons p ps ih =>
    rcases List.mem_cons.mp h with rfl | h
    · exact ⟨[], ps, rfl, rfl⟩
    · obtain ⟨front, back, rfl, hq⟩ := ih h
      refine ⟨p :: front, back, rfl, ?_⟩
      rw [hq, List.flatMap_cons, Mark.past_append]

/-- In a cut, every piece stands where it is placed. -/
theorem Cut.stands {text : String} {ps : List Piece} (h : Cut text.toList ps) {q : Mark × Piece}
    (hq : q ∈ placed .start ps) : Stands text q.1 q.2 := by
  obtain ⟨front, back, rfl, hmark⟩ := mem_placed hq
  have hfits := h.fits_of_append
  have htext : text.toList = front.flatMap Piece.text ++ (q.2.text ++ back.flatMap Piece.text) := by
    rw [← h.flatMap_text, List.flatMap_append, List.flatMap_cons]
  rw [Mark.start_past] at hmark
  rw [hmark]
  refine ⟨Mark.exact_behind htext, hfits.ne_nil, back.flatMap Piece.text, ?_, hfits⟩
  rw [Text.before_behind htext, List.append_assoc]
  exact htext

/-- What covers a part of a text begins and ends at exact places of it, in this order. -/
theorem exact_of_covers {text : String} {x : Extent} (h : x.Covers text.toList) :
    x.start.Exact text ∧ x.stop.Exact text ∧ x.start.offset ≤ x.stop.offset ∧
      x.stop.offset ≤ text.utf8ByteSize := by
  obtain ⟨front, inside, back, htext, hstart, hstop, -⟩ := h
  have hfront : text.toList = front ++ (inside ++ back) := by rw [htext, List.append_assoc]
  rw [hstart, hstop]
  refine ⟨Mark.exact_behind hfront, Mark.exact_behind htext, ?_, Mark.offset_behind_le htext⟩
  simp [Mark.behind, String.ofList_append]

/-- All places that are found in a text are exact. Every token begins and ends at a boundary between characters, on
the line and in the column that the text before it makes. The errors are the flaws of the cut, one for each and in
order, and each stands where its piece does, at the first character that was skipped. -/
theorem tokenize_exact (text : String) :
    (∀ t ∈ (tokenize text).tokens, t.start.Exact text ∧ t.stop.Exact text ∧ t.start.offset ≤ t.stop.offset ∧
      t.stop.offset ≤ text.utf8ByteSize) ∧
    (tokenize text).errors = errorsAt .start (pieces text.toList) ∧
    ∀ q ∈ placed .start (pieces text.toList), Stands text q.1 q.2 := by
  refine ⟨fun t ht => ?_, errorsOfPieces_eq _ _, fun q hq => ?_⟩
  · exact exact_of_covers (covers_of_mem ht)
  · exact (cut_pieces text.toList).stands hq

/-- Letters of two bytes in a comment, a closing keyword over two lines, and a flaw on either line of it. -/
def skewedText : String := "/* ä\nö */ § end\n  if 'x"

theorem tokenize_exact_skewedText :
    (∃ t ∈ (tokenize skewedText).tokens, t.start = ⟨15, 2, 7⟩ ∧ t.stop = ⟨23, 3, 4⟩ ∧ t.start.Exact skewedText ∧
      t.stop.Exact skewedText) ∧
    (tokenize skewedText).errors.map LexicalError.start = [⟨12, 2, 5⟩, ⟨24, 3, 5⟩] := by
  refine ⟨?_, by decide +kernel⟩
  have hfirst : (tokenize skewedText).tokens.head?.map (fun t => (t.start, t.stop)) =
      some (⟨15, 2, 7⟩, ⟨23, 3, 4⟩) := by decide +kernel
  obtain ⟨t, ht, hplaces⟩ := Option.map_eq_some_iff.mp hfirst
  have hmem := List.mem_of_head? ht
  obtain ⟨hstart, hstop, -⟩ := (tokenize_exact skewedText).1 t hmem
  exact ⟨t, hmem, congrArg Prod.fst hplaces, congrArg Prod.snd hplaces, hstart, hstop⟩

end Token

end ObjectAction
