/-
Two layouts of one text: the tokens are of the same kinds, but blanks, line ends and comments between them differ, and
so may the blanks inside an `end if`. What is read from a text does not depend on them.

Main statement: `parse_layout`. It asks that keywords of one word are spelled the same, because most of them can be
names; a name may be spelled in either letter case, and it is kept as it is spelled.
-/
import ObjectAction.Proofs.Body.Abreast
import ObjectAction.Proofs.Token.Lines

namespace ObjectAction

open Text (Mark)

/-- Tokens of one kind. A keyword is spelled the same if it is one word; between two words there can be any blanks. -/
structure Token.SameWord (t u : Token) : Prop where
  kind : u.kind = t.kind
  lexeme : ∀ k, t.kind = .keyword k → k ∉ [Keyword.endFor, .endIf, .endWhile] → u.lexeme = t.lexeme

/-- The error is at the token with that index. -/
def SyntaxError.RefersTo (e : SyntaxError) (tokens : List Token) (i : Nat) : Prop :=
  ∃ t : Token, tokens[i]? = some t ∧ e.line = t.start.line ∧ e.column = t.start.column

/-- Places where tokens of one index begin. -/
def Token.SameIndex (ts us : List Token) (m m' : Mark) : Prop :=
  ∃ (i : Nat) (t u : Token), ts[i]? = some t ∧ us[i]? = some u ∧ t.start = m ∧ u.start = m'

namespace Token

/-! ## Names in two layouts -/

theorem lexeme_identifier {text name : String} {t : Token} (ht : t ∈ (tokenize text).tokens)
    (hk : t.kind = .identifier name) : t.lexeme = name := by
  rw [tokens_tokenize, List.mem_append, List.mem_singleton] at ht
  rcases ht with ht | rfl
  · obtain ⟨before, inside, after, -, hspells, hlexeme, -⟩ := (cut_pieces text.toList).token ht
    rw [hk] at hspells
    cases hspells with
    | identifier => exact hlexeme
  · cases hk

/-- A name is an identifier, or a keyword that is one word. -/
theorem SameWord.lexeme_name {a b : String} {t u : Token} (h : t.SameWord u) (ht : t ∈ (tokenize a).tokens)
    (hu : u ∈ (tokenize b).tokens) (hname : Parser.isName t.kind = true) : u.lexeme = t.lexeme := by
  cases hk : t.kind with
  | identifier name => rw [lexeme_identifier ht hk, lexeme_identifier hu (h.kind.trans hk)]
  | keyword k =>
    refine h.lexeme k hk fun hclosing => ?_
    have hreserved : ∀ k ∈ [Keyword.endFor, .endIf, .endWhile], k.isReserved = true := by decide
    rw [hk, Parser.isName, hreserved k hclosing] at hname
    cases hname
  | _ =>
    rw [hk] at hname
    cases hname

/-! ## Streams of two layouts -/

variable {a b : String}

/-- The line end that is added to a text adds no token. -/
theorem sameWord_lineEnd (h : List.Forall₂ SameWord (tokenize a).tokens (tokenize b).tokens) :
    List.Forall₂ SameWord (tokenize (a ++ "\n")).tokens (tokenize (b ++ "\n")).tokens := by
  have hlast : ∀ text, (tokenize text).tokens =
      (tokenize text).tokens.dropLast ++ [atEnd (Mark.start.past text.toList)] := by
    intro text
    rw [tokens_tokenize, List.dropLast_concat]
  have hend : ∀ m m', SameWord (atEnd m) (atEnd m') := fun m m' => ⟨rfl, fun _ _ _ => rfl⟩
  rw [hlast a, hlast b, ← List.forall₂_reverse_iff, List.reverse_concat, List.reverse_concat] at h
  rw [tokens_lineEnd, tokens_lineEnd, ← List.forall₂_reverse_iff, List.reverse_concat, List.reverse_concat]
  cases h with
  | cons _ hrest => exact .cons (hend _ _) hrest

theorem abreast_of_sameWord (h : List.Forall₂ SameWord (tokenize a).tokens (tokenize b).tokens) :
    List.Forall₂ (Token.Abreast (SameIndex (tokenize a).tokens (tokenize b).tokens)) (tokenize a).tokens
      (tokenize b).tokens := by
  rw [List.forall₂_iff_get] at h ⊢
  obtain ⟨hlength, hget⟩ := h
  refine ⟨hlength, fun i hi hi' => ?_⟩
  have hword := hget i hi hi'
  refine ⟨hword.kind, hword.lexeme_name (List.get_mem _ _) (List.get_mem _ _), ?_⟩
  exact ⟨i, _, _, List.getElem?_eq_getElem hi, List.getElem?_eq_getElem hi', rfl, rfl⟩

end Token

variable {a b : String}

theorem Stream.abreast_ofText (h : List.Forall₂ Token.SameWord (tokenize a).tokens (tokenize b).tokens) :
    (ofText a).Abreast (Token.SameIndex (tokenize (a ++ "\n")).tokens (tokenize (b ++ "\n")).tokens) (ofText b) := by
  have habreast := Token.abreast_of_sameWord (Token.sameWord_lineEnd h)
  unfold ofText ofTokens
  generalize Token.SameIndex (tokenize (a ++ "\n")).tokens (tokenize (b ++ "\n")).tokens = At at habreast ⊢
  rw [Token.tokens_tokenize, Token.tokens_tokenize] at habreast ⊢
  rw [← List.forall₂_reverse_iff, List.reverse_concat, List.reverse_concat] at habreast
  cases habreast with
  | cons hlast hrest =>
    constructor
    · simpa using hrest
    · simpa using hlast

/-- Two texts of the same tokens are both read, as bodies that differ in their places only, or both fail. Then the
same is expected, at the token of the same index. -/
theorem parse_layout (h : List.Forall₂ Token.SameWord (tokenize a).tokens (tokenize b).tokens) :
    (∃ x y, parse a = .ok x ∧ parse b = .ok y ∧ y.bare = x.bare) ∨
    ∃ e e', parse a = .error e ∧ parse b = .error e' ∧ e'.expected = e.expected ∧
      ∃ i, e.RefersTo (tokenize (a ++ "\n")).tokens i ∧ e'.RefersTo (tokenize (b ++ "\n")).tokens i := by
  have hbody := Parser.agrees_body _ _ (Stream.abreast_ofText h)
  have hparse : ∀ text, parse text = Prod.fst <$> Parser.body (Stream.ofText text) := fun _ => rfl
  rw [hparse, hparse]
  generalize Parser.body (Stream.ofText a) = x, Parser.body (Stream.ofText b) = y at hbody
  cases hbody with
  | ok hbare => exact .inl ⟨_, _, rfl, rfl, hbare⟩
  | error he =>
    obtain ⟨hexpected, m, m', ⟨i, t, u, ht, hu, rfl, rfl⟩, hplace, hplace'⟩ := he
    exact .inr ⟨_, _, rfl, rfl, hexpected, i, ⟨t, ht, hplace⟩, u, hu, hplace'⟩

/-! ## Texts at hand -/

/-- Tells of two kinds that they are the same, but not of reals. -/
def Token.Kind.same : Token.Kind → Token.Kind → Bool
  | .identifier a, .identifier b => a = b
  | .keyword a, .keyword b => a = b
  | .qualifier a, .qualifier b => a = b
  | .integer a, .integer b => a = b
  | .string a, .string b => a = b
  | .phrase a, .phrase b => a = b
  | .symbol a, .symbol b => a = b
  | .endOfInput, .endOfInput => true
  | _, _ => false

def Token.sameWord (t u : Token) : Bool :=
  t.kind.same u.kind && (u.lexeme = t.lexeme || [Keyword.endFor, .endIf, .endWhile].any (Parser.isKeyword · t.kind))

theorem Token.Kind.eq_of_same {k k' : Token.Kind} (h : k.same k' = true) : k' = k := by
  unfold same at h
  split at h
  · rw [of_decide_eq_true h]
  · rw [of_decide_eq_true h]
  · rw [of_decide_eq_true h]
  · rw [of_decide_eq_true h]
  · rw [of_decide_eq_true h]
  · rw [of_decide_eq_true h]
  · rw [of_decide_eq_true h]
  · rfl
  · cases h

theorem Token.sameWord_of_all {ts us : List Token} (hlength : ts.length = us.length)
    (h : (ts.zip us).all (fun x => x.1.sameWord x.2) = true) : List.Forall₂ SameWord ts us := by
  refine List.forall₂_iff_zip.mpr ⟨hlength, fun {t u} htu => ?_⟩
  have hword := List.all_eq_true.mp h _ htu
  obtain ⟨hkind, hlexeme⟩ := Bool.and_eq_true_iff.mp hword
  refine ⟨Kind.eq_of_same hkind, fun k hk hsingle => ?_⟩
  rcases Bool.or_eq_true_iff.mp hlexeme with hsame | hclosing
  · exact of_decide_eq_true hsame
  · obtain ⟨k', hmem, hk'⟩ := List.any_eq_true.mp hclosing
    cases hk.symm.trans (Parser.isKeyword_iff.mp hk')
    exact absurd hmem hsingle

/-- A branch on one line. -/
def tightText : String := "if(x)y=one;end if;"

/-- The same branch on four lines, with a comment inside. -/
def looseText : String := "if (x)\n  y = one; // set\nEND\n if;"

/-- Nothing is assigned. -/
def tightHole : String := "y=;"

def looseHole : String := "y /* what? */ =\n  ;"

theorem parse_layout_looseText :
    List.Forall₂ Token.SameWord (tokenize tightText).tokens (tokenize looseText).tokens ∧
    (∃ x y, parse tightText = .ok x ∧ parse looseText = .ok y ∧ y.bare = x.bare) ∧
    List.Forall₂ Token.SameWord (tokenize tightHole).tokens (tokenize looseHole).tokens ∧
    ∃ e e', parse tightHole = .error e ∧ parse looseHole = .error e' ∧ e'.expected = e.expected ∧
      ∃ i, e.RefersTo (tokenize (tightHole ++ "\n")).tokens i ∧
        e'.RefersTo (tokenize (looseHole ++ "\n")).tokens i := by
  have htext : List.Forall₂ Token.SameWord (tokenize tightText).tokens (tokenize looseText).tokens :=
    Token.sameWord_of_all (by decide +kernel) (by decide +kernel)
  have hhole : List.Forall₂ Token.SameWord (tokenize tightHole).tokens (tokenize looseHole).tokens :=
    Token.sameWord_of_all (by decide +kernel) (by decide +kernel)
  have hread : (parse tightText).toOption.isSome = true := by decide +kernel
  have hfail : (parse tightHole).toOption.isSome = false := by decide +kernel
  refine ⟨htext, ?_, hhole, ?_⟩
  · rcases parse_layout htext with hok | ⟨e, e', he, -⟩
    · exact hok
    · rw [he] at hread
      cases hread
  · rcases parse_layout hhole with ⟨x, y, hx, -⟩ | herror
    · rw [hx] at hfail
      cases hfail
    · exact herror

end ObjectAction
