/-
Expressions are read back from their lexemes. The levels are taken one after another, from selections
down to disjunctions: if a level reads every expression that its place asks for, so does the next
looser one. What stands in parentheses, brackets and arguments is read by `inner`, which is assumed to
read everything of less than the given length.

The left operand of an operator is read in the pass of a repetition that goes on with the operator, so
it is never read on its own. The statements about repetitions therefore say which pass is reached
after an operand (`Reaches`) and not only what is read.
-/
import ObjectAction.Proofs.Body.Reading
import ObjectAction.Proofs.Body.Writing

namespace ObjectAction

open Lexeme

/-! ## What can follow an expression -/

/-- The token `k` does not go on with an expression in a place that asks for level `n`: it begins no
selection, and if it is an operator, it is a looser one. -/
structure Ends (n : Nat) (k : Token.Kind) : Prop where
  dot : Parser.isSymbol .dot k = false
  bracket : Parser.isSymbol .leftBracket k = false
  operator : ∀ op : BinaryOperator, k = op.lexeme.kind → op.level < n

/-- The token `k` moreover begins no operand, so that no name before it is taken for an operator. -/
structure Follows (n : Nat) (k : Token.Kind) : Prop extends Ends n k where
  operand : Parser.startsOperand k = false

namespace Follows

theorem mono {m n : Nat} {k : Token.Kind} (h : Follows m k) (hmn : m ≤ n) : Follows n k :=
  ⟨⟨h.dot, h.bracket, fun op hop => lt_of_lt_of_le (h.operator op hop) hmn⟩, h.operand⟩

theorem not_paren {n : Nat} {k : Token.Kind} (h : Follows n k) : Parser.isSymbol .leftParen k = false := by
  have hk := h.operand
  cases k with
  | symbol y => cases y <;> first | rfl | cases hk
  | _ => rfl

/-- An expression ends before what closes the place where it stands. -/
theorem closer {n : Nat} {y : Symbol} (h : y ∈ [Symbol.rightParen, .rightBracket, .comma, .semicolon]) :
    Follows n (.symbol y) := by
  simp only [List.mem_cons, List.not_mem_nil, or_false] at h
  refine ⟨⟨?_, ?_, fun op hop => ?_⟩, ?_⟩
  · rcases h with rfl | rfl | rfl | rfl <;> rfl
  · rcases h with rfl | rfl | rfl | rfl <;> rfl
  · rcases h with rfl | rfl | rfl | rfl <;> cases op <;> cases hop
  · rcases h with rfl | rfl | rfl | rfl <;> rfl

/-- An operand ends before an operator of its own level or a looser one. -/
theorem operatorLexeme (op : BinaryOperator) : Follows (op.level + 1) op.lexeme.kind := by
  refine ⟨⟨?_, ?_, fun op' h => ?_⟩, ?_⟩
  · cases op <;> rfl
  · cases op <;> rfl
  · cases op <;> cases op' <;> first | exact Nat.lt_succ_self _ | cases h
  · cases op <;> rfl

end Follows

/-! ## Lexemes at a level -/

theorem enclosedIf_true (ls : List Lexeme) : enclosedIf true ls = enclosed ls := rfl

theorem enclosedIf_false (ls : List Lexeme) : enclosedIf false ls = ls := rfl

theorem length_enclosed (ls : List Lexeme) : (enclosed ls).length = ls.length + 2 := by
  simp [enclosed]

theorem BinaryOperator.level_lt (op : BinaryOperator) : op.level < 5 := by
  cases op <;> decide

theorem UnaryOperator.operandLevel_cases (op : UnaryOperator) (operand : Expression) :
    op.operandLevel operand = 6 ∨ op.operandLevel operand = 5 := by
  unfold operandLevel
  split
  · exact .inl rfl
  · exact .inr rfl

namespace Expression

theorem lexemesAt_of_le {n : Nat} {e : Expression} (h : n ≤ e.level) : e.lexemesAt n = e.lexemes := by
  unfold lexemesAt
  rw [decide_eq_false (by omega), enclosedIf_false]

theorem lexemesAt_of_lt {n : Nat} {e : Expression} (h : e.level < n) : e.lexemesAt n = enclosed e.lexemes := by
  unfold lexemesAt
  rw [decide_eq_true h, enclosedIf_true]

/-- Two neighbouring levels differ only for the expressions between them. -/
theorem lexemesAt_succ {n : Nat} {e : Expression} (h : e.level ≠ n) : e.lexemesAt (n + 1) = e.lexemesAt n := by
  rcases Nat.lt_or_ge e.level n with hlt | hge
  · rw [lexemesAt_of_lt hlt, lexemesAt_of_lt (by omega)]
  · rw [lexemesAt_of_le hge, lexemesAt_of_le (by omega)]

theorem lexemesAt_field (x : Extent) (target : Expression) (w : String) :
    (field x target w).lexemesAt 6 = target.lexemesAt 6 ++ [.symbol .dot, .name w] := rfl

theorem lexemesAt_index (x : Extent) (target position : Expression) :
    (index x target position).lexemesAt 6 =
      target.lexemesAt 6 ++ (.symbol .leftBracket :: position.lexemes ++ [.symbol .rightBracket]) := by
  show enclosedIf _ _ ++ _ ++ _ = _
  rw [List.append_assoc]
  rfl

theorem lexemesAt_operation (x : Extent) (target : Expression) (w : String) (args : List Argument) :
    (invoke x (.receiver target) w args).lexemesAt 6 =
      target.lexemesAt 6 ++ (.symbol .dot :: .name w :: .symbol .leftParen :: Argument.lexemes args) := by
  show (enclosedIf _ _ ++ _) ++ _ = _
  rw [List.append_assoc]
  rfl

/-- Whether an expression is no operation on another one. -/
def isPrimary : Expression → Bool
  | field _ _ _ | index _ _ _ | unary _ _ _ | binary _ _ _ _ | invoke _ (.receiver _) _ _ => false
  | _ => true

theorem lexemes_ne_nil : ∀ e : Expression, e.lexemes ≠ []
  | .integer _ _ | .real _ _ | .string _ _ | .boolean _ _ | .enumerator _ _ _ | .self _ | .selected _
  | .parameter _ _ _ | .var _ _ | .field _ _ _ | .index _ _ _ | .unary _ _ _ | .binary _ _ _ _
  | .invoke _ _ _ _ => by simp [lexemes]

end Expression

namespace Parser

/-- The parser reads every well-formed expression in a place that asks for level `n`, as long as it has
at most `bound` lexemes there. -/
def ReadsLevel (p : Parser Expression) (n bound : Nat) : Prop :=
  ∀ e : Expression, e.isWellFormed = true → (e.lexemesAt n).length ≤ bound →
    ∀ rest, Follows n (headKind rest) → Reads p (e.lexemesAt n) rest (·.bare = e.bare)

/-- In a place that asks for nothing, up to what closes it. -/
theorem ReadsLevel.closed {p : Parser Expression} {bound : Nat} (h : ReadsLevel p 0 bound) {e : Expression}
    (hw : e.isWellFormed = true) (hb : e.lexemes.length ≤ bound) {y : Symbol}
    (hy : y ∈ [Symbol.rightParen, .rightBracket, .comma, .semicolon]) (rest : List Lexeme) :
    Reads p e.lexemes (.symbol y :: rest) (·.bare = e.bare) := by
  have he := Expression.lexemesAt_of_le (Nat.zero_le e.level)
  have := h e hw (by rw [he]; exact hb) (.symbol y :: rest) (Follows.closer hy)
  rwa [he] at this

variable {inner : Parser Expression} {bound : Nat}

theorem isSymbol_name (y : Symbol) (w : String) : isSymbol y (Lexeme.name w).kind = false := by
  unfold Lexeme.name wordKind
  cases Keyword.ofWord? w.toList <;> rfl

/-! ## Arguments and primary expressions -/

theorem reads_argumentsUpTo (h : ReadsLevel inner 0 bound) : ∀ (args : List Argument), args ≠ [] →
    Argument.areWellFormed args = true → (Argument.lexemes args).length ≤ bound + 1 →
    ∀ m, args.length ≤ m → ∀ rest, Reads (argumentsUpTo inner m) (Argument.lexemes args) rest
      (fun as => Argument.bareAll as = Argument.bareAll args)
  | [], hne, _, _, _, _, _ => absurd rfl hne
  | .mk _ _ _ :: others, _, _, _, 0, hm, _ => absurd hm (by simp)
  | .mk x parameter value :: others, _, hw, hb, m + 1, hm, rest => by
    simp only [Argument.areWellFormed, Bool.and_eq_true] at hw
    obtain ⟨⟨hname, hvalue⟩, hothers⟩ := hw
    unfold argumentsUpTo Argument.lexemes at *
    simp only [List.cons_append] at hb ⊢
    refine .look reads_mark fun start _ => ?_
    refine .step (reads_name hname) ?_
    rintro _ rfl
    refine .step reads_symbol fun _ _ => ?_
    cases others with
    | nil =>
      refine .bind (h.closed hvalue (by simp at hb; omega) (by simp) rest) fun v hv => ?_
      refine .look (reads_extentFrom start) fun y _ => ?_
      refine .look (reads_eat_other rfl) ?_
      rintro _ rfl
      refine .step reads_symbol fun _ _ => .pure ?_
      simp [Argument.bareAll, hv]
    | cons other others =>
      have ih := reads_argumentsUpTo h (other :: others) (by simp) hothers (by simp at hb ⊢; omega) m
        (by simpa using hm) rest
      refine .bind (h.closed hvalue (by simp at hb; omega) (by simp) _) fun v hv => ?_
      refine .look (reads_extentFrom start) fun y _ => ?_
      refine .step (reads_eat rfl) ?_
      rintro _ rfl
      refine .last ih fun as has => .pure ?_
      simp only [Argument.bareAll, hv] at has ⊢
      rw [has]

theorem length_le_lexemes : ∀ args : List Argument, args.length ≤ (Argument.lexemes args).length
  | [] => by simp
  | .mk _ _ value :: [] => by simp [Argument.lexemes]
  | .mk _ _ value :: other :: others => by
    have := length_le_lexemes (other :: others)
    simp [Argument.lexemes] at this ⊢
    omega

/-- A parenthesised list of arguments. -/
theorem reads_arguments (h : ReadsLevel inner 0 bound) {args : List Argument}
    (hw : Argument.areWellFormed args = true) (hb : (Argument.lexemes args).length ≤ bound + 1)
    (rest : List Lexeme) :
    Reads (arguments inner) (.symbol .leftParen :: Argument.lexemes args) rest
      (fun as => Argument.bareAll as = Argument.bareAll args) := by
  unfold arguments
  refine .step reads_symbol fun _ _ => ?_
  cases args with
  | nil =>
    refine .step (reads_eat rfl) ?_
    rintro _ rfl
    exact .pure rfl
  | cons arg args =>
    have hne : isSymbol .rightParen (headKind (Argument.lexemes (arg :: args) ++ rest)) = false := by
      obtain ⟨_, _, _⟩ := arg
      exact isSymbol_name _ _
    refine .look (reads_eat_other hne) ?_
    rintro _ rfl
    refine .look reads_remaining ?_
    rintro _ rfl
    have hlen := length_le_lexemes (arg :: args)
    exact reads_argumentsUpTo h _ (by simp) hw hb _ (by simp at hlen ⊢; omega) rest

/-- An expression in parentheses. -/
theorem reads_enclosed (h : ReadsLevel inner 0 bound) {e : Expression} (hw : e.isWellFormed = true)
    (hb : e.lexemes.length ≤ bound) (rest : List Lexeme) :
    Reads (primary inner) (enclosed e.lexemes) rest (·.bare = e.bare) := by
  unfold primary enclosed
  refine .look reads_mark fun start _ => ?_
  refine .look reads_kind ?_
  rintro _ rfl
  refine .step reads_advance fun _ _ => ?_
  refine .bind (h.closed hw hb (by simp) rest) fun x hx => ?_
  exact .step reads_symbol fun _ _ => .pure hx

/-- The kind of a name is an identifier or a keyword that is not reserved. -/
theorem name_kind {w : String} (h : Lexeme.isName w = true) :
    (Lexeme.name w).kind = .identifier w ∨ ∃ k : Keyword, (Lexeme.name w).kind = .keyword k ∧ k.isReserved = false := by
  simp only [Lexeme.isName, Bool.and_eq_true] at h
  have h2 := h.2
  unfold Lexeme.name wordKind at *
  cases hk : Keyword.ofWord? w.toList with
  | none => exact .inl rfl
  | some k =>
    rw [hk] at h2
    exact .inr ⟨k, rfl, by simpa [isName] using h2⟩

theorem reads_variable {x : Extent} {w : String} (h : Lexeme.isName w = true) (rest : List Lexeme) :
    Reads (primary inner) [.name w] rest (·.bare = (Expression.var x w).bare) := by
  have hvar : ∀ start, Reads (name "expression" >>= fun v => extentFrom start >>= fun y =>
      Pure.pure (Expression.var y v)) [.name w] rest (·.bare = (Expression.var x w).bare) := by
    intro start
    refine .step (reads_name h) ?_
    rintro _ rfl
    exact .look (reads_extentFrom start) fun _ _ => .pure rfl
  unfold primary
  refine .look reads_mark fun start _ => ?_
  refine .look reads_kind ?_
  rintro _ rfl
  rw [List.cons_append, headKind_cons]
  -- no reserved keyword is a name, and only reserved keywords begin another primary expression
  rcases name_kind h with hk | ⟨k, hk, hr⟩
  · rw [hk]; exact hvar start
  · rw [hk]
    cases k <;> first | exact hvar start | exact absurd hr (by decide)

/-- An expression that is no operation on another one. -/
theorem reads_primary (h : ReadsLevel inner 0 bound) {e : Expression} (hw : e.isWellFormed = true)
    (hb : e.lexemes.length ≤ bound + 1) (hp : e.isPrimary = true) {rest : List Lexeme}
    (hparen : isSymbol .leftParen (headKind rest) = false) :
    Reads (primary inner) e.lexemes rest (·.bare = e.bare) := by
  have hone : ∀ {l : Lexeme} (f : Extent → Expression) (start : Text.Mark), (∀ x, (f x).bare = e.bare) →
      Reads (do advance; return f (← extentFrom start)) [l] rest (·.bare = e.bare) := by
    intro l f start hf
    refine .step reads_advance fun _ _ => ?_
    exact .look (reads_extentFrom start) fun x _ => .pure (hf x)
  cases e with
  | var x w => exact reads_variable hw rest
  | real => cases hw
  | field | index | unary | binary => cases hp
  | integer | string | self | selected =>
    unfold primary
    refine .look reads_mark fun start _ => .look reads_kind ?_
    rintro _ rfl
    exact hone _ start fun _ => rfl
  | boolean x b =>
    unfold primary
    refine .look reads_mark fun start _ => .look reads_kind ?_
    rintro _ rfl
    cases b with
    | false => exact hone _ start fun _ => rfl
    | true => exact hone _ start fun _ => rfl
  | parameter x w ofEvent =>
    have hread : ∀ start, Reads (do
        advance
        expectSymbol .dot "'.'"
        let parameter ← name "parameter name"
        return Expression.parameter (← extentFrom start) parameter ofEvent)
        (Expression.parameter x w ofEvent).lexemes rest
        (·.bare = (Expression.parameter x w ofEvent).bare) := by
      intro start
      refine .step reads_advance fun _ _ => ?_
      refine .step reads_symbol fun _ _ => ?_
      refine .step (reads_name hw) ?_
      rintro _ rfl
      exact .look (reads_extentFrom start) fun _ _ => .pure rfl
    unfold primary
    refine .look reads_mark fun start _ => .look reads_kind ?_
    rintro _ rfl
    cases ofEvent with
    | false => exact hread start
    | true => exact hread start
  | enumerator x owner w =>
    obtain ⟨_, hname⟩ := Bool.and_eq_true_iff.mp hw
    unfold primary
    refine .look reads_mark fun start _ => .look reads_kind ?_
    rintro _ rfl
    refine .step reads_advance fun _ _ => ?_
    refine .step (reads_name hname) ?_
    rintro _ rfl
    refine .look reads_kind ?_
    rintro _ rfl
    rw [List.nil_append, hparen]
    exact .look (reads_extentFrom start) fun _ _ => .pure rfl
  | invoke x callee w args =>
    simp only [Expression.isWellFormed, Bool.and_eq_true] at hw
    obtain ⟨⟨hcallee, hname⟩, hargs⟩ := hw
    have hread := reads_arguments h hargs
      (by simp only [Expression.lexemes, List.length_append, List.length_cons] at hb; omega) rest
    unfold primary
    refine .look reads_mark fun start _ => .look reads_kind ?_
    rintro _ rfl
    cases callee with
    | bridge | ofClass | port => cases hcallee
    | receiver => cases hp
    | function =>
      refine .step reads_advance fun _ _ => ?_
      refine .step (reads_name hname) ?_
      rintro _ rfl
      refine .last hread fun as has => ?_
      refine .look (reads_extentFrom start) fun y _ => .pure ?_
      rw [Expression.bare, Expression.bare, has]
    | unmarked owner =>
      refine .step reads_advance fun _ _ => ?_
      refine .step (reads_name hname) ?_
      rintro _ rfl
      refine .look reads_kind ?_
      rintro _ rfl
      refine .last hread fun as has => ?_
      refine .look (reads_extentFrom start) fun y _ => .pure ?_
      rw [Expression.bare, Expression.bare, has]

/-! ## Selections -/

/-- The passes of the repetition of selections that have read `e` and can take all of `rest`. -/
def SelectedSoFar (inner : Parser Expression) (e : Expression) (rest : List Lexeme) (q : Parser Expression) :
    Prop :=
  ∃ start m x, q = selections inner start m x ∧ rest.length ≤ m ∧ x.bare = e.bare

/-- A primary expression is read before the first pass. -/
theorem reaches_selections {e : Expression} {ls rest : List Lexeme}
    (h : Reads (primary inner) ls rest (·.bare = e.bare)) :
    Reaches (selection inner) ls rest (SelectedSoFar inner e rest) := by
  unfold selection
  refine .look reads_mark fun start _ => ?_
  refine .last h fun x hx => ?_
  refine .look reads_remaining ?_
  rintro _ rfl
  exact .here ⟨start, _, x, rfl, by simp, hx⟩

theorem reaches_field {e : Expression} {w : String} (hname : Lexeme.isName w = true) {rest : List Lexeme}
    (hparen : isSymbol .leftParen (headKind rest) = false) (y : Extent) {q : Parser Expression}
    (hq : SelectedSoFar inner e ([.symbol .dot, .name w] ++ rest) q) :
    Reaches q [.symbol .dot, .name w] rest (SelectedSoFar inner (.field y e w) rest) := by
  obtain ⟨start, m, x, rfl, hm, hx⟩ := hq
  obtain ⟨m, rfl⟩ : ∃ m', m = m' + 1 := ⟨m - 1, by simp at hm; omega⟩
  unfold selections
  refine .step (reads_eat rfl) ?_
  rintro _ rfl
  refine .step (reads_name hname) ?_
  rintro w rfl
  refine .look reads_kind ?_
  rintro _ rfl
  rw [List.nil_append, hparen]
  refine .look (reads_extentFrom start) fun z _ => ?_
  refine .here ⟨start, m, .field z x w, rfl, by simp at hm; omega, ?_⟩
  rw [Expression.bare, Expression.bare, hx]

theorem reaches_index (h : ReadsLevel inner 0 bound) {e position : Expression}
    (hw : position.isWellFormed = true) (hb : position.lexemes.length ≤ bound) {rest : List Lexeme} (y : Extent)
    {q : Parser Expression}
    (hq : SelectedSoFar inner e (.symbol .leftBracket :: position.lexemes ++ [.symbol .rightBracket] ++ rest) q) :
    Reaches q (.symbol .leftBracket :: position.lexemes ++ [.symbol .rightBracket]) rest
      (SelectedSoFar inner (.index y e position) rest) := by
  obtain ⟨start, m, x, rfl, hm, hx⟩ := hq
  obtain ⟨m, rfl⟩ : ∃ m', m = m' + 1 := ⟨m - 1, by simp at hm; omega⟩
  unfold selections
  refine .look (reads_eat_other rfl) ?_
  rintro _ rfl
  refine .step (reads_eat rfl) ?_
  rintro _ rfl
  refine .bind (h.closed hw hb (by simp) rest) fun v hv => ?_
  refine .step reads_symbol fun _ _ => ?_
  refine .look (reads_extentFrom start) fun z _ => ?_
  refine .here ⟨start, m, .index z x v, rfl, by simp at hm; omega, ?_⟩
  rw [Expression.bare, Expression.bare, hx, hv]

theorem reaches_operation (h : ReadsLevel inner 0 bound) {e : Expression} {w : String}
    (hname : Lexeme.isName w = true) {args : List Argument} (hw : Argument.areWellFormed args = true)
    (hb : (Argument.lexemes args).length ≤ bound + 1) {rest : List Lexeme} (y : Extent) {q : Parser Expression}
    (hq : SelectedSoFar inner e
      (.symbol .dot :: .name w :: .symbol .leftParen :: Argument.lexemes args ++ rest) q) :
    Reaches q (.symbol .dot :: .name w :: .symbol .leftParen :: Argument.lexemes args) rest
      (SelectedSoFar inner (.invoke y (.receiver e) w args) rest) := by
  obtain ⟨start, m, x, rfl, hm, hx⟩ := hq
  obtain ⟨m, rfl⟩ : ∃ m', m = m' + 1 := ⟨m - 1, by simp at hm; omega⟩
  unfold selections
  refine .step (reads_eat rfl) ?_
  rintro _ rfl
  refine .step (reads_name hname) ?_
  rintro w rfl
  refine .look reads_kind ?_
  rintro _ rfl
  refine .last (reads_arguments h hw hb rest) fun as has => ?_
  refine .look (reads_extentFrom start) fun z _ => ?_
  refine .here ⟨start, m, .invoke z (.receiver x) w as, rfl, by simp at hm; omega, ?_⟩
  rw [Expression.bare, Expression.bare, Callee.bare, Callee.bare, hx, has]

/-- No further selection follows. -/
theorem reads_selections_end {e : Expression} {n : Nat} {rest : List Lexeme} (h : Ends n (headKind rest))
    {q : Parser Expression} (hq : SelectedSoFar inner e rest q) : Reads q [] rest (·.bare = e.bare) := by
  obtain ⟨start, m, x, rfl, _, hx⟩ := hq
  cases m with
  | zero => exact .pure hx
  | succ m =>
    unfold selections
    refine .look (reads_eat_other h.dot) ?_
    rintro _ rfl
    refine .look (reads_eat_other h.bracket) ?_
    rintro _ rfl
    exact .pure hx

/-- Every expression in the place of a selection is read up to the pass after it. -/
theorem reaches_selection (h : ReadsLevel inner 0 bound) : ∀ (e : Expression), e.isWellFormed = true →
    (e.lexemesAt 6).length ≤ bound + 1 → ∀ rest, isSymbol .leftParen (headKind rest) = false →
    Reaches (selection inner) (e.lexemesAt 6) rest (SelectedSoFar inner e rest)
  | .field y target w, hw, hb, rest, hrest => by
    obtain ⟨htarget, hname⟩ := Bool.and_eq_true_iff.mp hw
    rw [Expression.lexemesAt_field] at hb ⊢
    have ih := reaches_selection h target htarget (by simp at hb; omega) (.symbol .dot :: .name w :: rest) rfl
    exact ih.trans fun q hq => reaches_field hname hrest y hq
  | .index y target position, hw, hb, rest, hrest => by
    obtain ⟨htarget, hposition⟩ := Bool.and_eq_true_iff.mp hw
    rw [Expression.lexemesAt_index] at hb ⊢
    have ih := reaches_selection h target htarget (by simp at hb; omega)
      (.symbol .leftBracket :: position.lexemes ++ [.symbol .rightBracket] ++ rest) rfl
    exact ih.trans fun q hq => reaches_index h hposition (by simp at hb; omega) y hq
  | .invoke y (.receiver target) w args, hw, hb, rest, hrest => by
    simp only [Expression.isWellFormed, Callee.isWellFormed, Bool.and_eq_true] at hw
    obtain ⟨⟨htarget, hname⟩, hargs⟩ := hw
    rw [Expression.lexemesAt_operation] at hb ⊢
    have ih := reaches_selection h target htarget (by simp at hb; omega)
      (.symbol .dot :: .name w :: .symbol .leftParen :: Argument.lexemes args ++ rest) rfl
    exact ih.trans fun q hq => reaches_operation h hname hargs (by simp at hb; omega) y hq
  | .unary y op operand, hw, hb, rest, _ =>
    reaches_selections (reads_enclosed h hw (by
      rw [Expression.lexemesAt_of_lt (by simp [Expression.level]), length_enclosed] at hb; omega) rest)
  | .binary y left op right, hw, hb, rest, _ => by
    have hlevel : (Expression.binary y left op right).level < 6 := lt_trans op.level_lt (by decide)
    rw [Expression.lexemesAt_of_lt hlevel] at hb ⊢
    rw [length_enclosed] at hb
    exact reaches_selections (reads_enclosed h hw (by omega) rest)
  | .integer _ _, hw, hb, _, hrest | .real _ _, hw, hb, _, hrest | .string _ _, hw, hb, _, hrest
  | .boolean _ _, hw, hb, _, hrest | .enumerator _ _ _, hw, hb, _, hrest | .self _, hw, hb, _, hrest
  | .selected _, hw, hb, _, hrest | .parameter _ _ _, hw, hb, _, hrest | .var _ _, hw, hb, _, hrest
  | .invoke _ .function _ _, hw, hb, _, hrest | .invoke _ (.unmarked _) _ _, hw, hb, _, hrest
  | .invoke _ (.bridge _) _ _, hw, hb, _, hrest | .invoke _ (.ofClass _) _ _, hw, hb, _, hrest
  | .invoke _ (.port _) _ _, hw, hb, _, hrest =>
    reaches_selections (reads_primary h hw hb rfl hrest)

/-- Selections and what has no operator are read wherever no looser expression can stand. -/
theorem reads_selection (h : ReadsLevel inner 0 bound) : ReadsLevel (selection inner) 6 (bound + 1) := by
  intro e hw hb rest hrest
  exact (reaches_selection h e hw hb rest hrest.not_paren).readsEnd fun q hq => reads_selections_end hrest.toEnds hq

/-! ## How expressions begin -/

/-- The lexemes begin as those of a selection do: the first can begin an operand and is no prefix operator
on its own, and if it is a name, then it is alone or selected from. -/
def BeginsSelection (ls : List Lexeme) : Prop :=
  ∃ l more, ls = l :: more ∧ startsOperand l.kind = true ∧ isKeyword .not l.kind = false ∧
    (isName l.kind = true → more = [] ∨ headKind more = .symbol .dot ∨ headKind more = .symbol .leftBracket)

theorem BeginsSelection.append {ls more : List Lexeme} (h : BeginsSelection ls)
    (hm : headKind more = .symbol .dot ∨ headKind more = .symbol .leftBracket) :
    BeginsSelection (ls ++ more) := by
  obtain ⟨l, ls', rfl, hl, hnot, hname⟩ := h
  refine ⟨l, ls' ++ more, rfl, hl, hnot, fun hl => .inr ?_⟩
  cases ls' with
  | nil => exact hm
  | cons l' ls' => exact (hname hl).resolve_left (by simp)

theorem BeginsSelection.one {l : Lexeme} (h : startsOperand l.kind = true) (hnot : isKeyword .not l.kind = false) :
    BeginsSelection [l] :=
  ⟨l, [], rfl, h, hnot, fun _ => .inl rfl⟩

/-- What begins with no name can go on with anything. -/
theorem BeginsSelection.fixed {l : Lexeme} (h : startsOperand l.kind = true) (hname : isName l.kind = false)
    (hnot : isKeyword .not l.kind = false) (more : List Lexeme) : BeginsSelection (l :: more) :=
  ⟨l, more, rfl, h, hnot, fun hl => by rw [hname] at hl; cases hl⟩

theorem startsOperand_name {w : String} (h : Lexeme.isName w = true) :
    startsOperand (Lexeme.name w).kind = true ∧ isKeyword .not (Lexeme.name w).kind = false := by
  rcases name_kind h with hk | ⟨k, hk, hr⟩ <;> rw [hk]
  · exact ⟨rfl, rfl⟩
  · refine ⟨by simp [startsOperand, hr], ?_⟩
    cases k <;> first | rfl | cases hr

theorem beginsSelection_enclosed (ls : List Lexeme) : BeginsSelection (enclosed ls) :=
  .fixed rfl rfl rfl _

theorem beginsSelection : ∀ e : Expression, e.isWellFormed = true → BeginsSelection (e.lexemesAt 6)
  | .field _ target _, hw =>
    (beginsSelection target (Bool.and_eq_true_iff.mp hw).1).append (.inl rfl)
  | .index y target position, hw => by
    rw [Expression.lexemesAt_index]
    exact (beginsSelection target (Bool.and_eq_true_iff.mp hw).1).append (.inr rfl)
  | .invoke y (.receiver target) w args, hw => by
    simp only [Expression.isWellFormed, Callee.isWellFormed, Bool.and_eq_true] at hw
    rw [Expression.lexemesAt_operation]
    exact (beginsSelection target hw.1.1).append (.inl rfl)
  | .unary _ _ _, _ => beginsSelection_enclosed _
  | .binary y left op right, _ => by
    rw [Expression.lexemesAt_of_lt (lt_trans op.level_lt (by decide))]
    exact beginsSelection_enclosed _
  | .var _ w, hw => .one (startsOperand_name hw).1 (startsOperand_name hw).2
  | .integer _ _, _ | .string _ _, _ | .self _, _ | .selected _, _ | .enumerator _ _ _, _
  | .boolean _ true, _ | .boolean _ false, _ | .parameter _ _ true, _ | .parameter _ _ false, _
  | .invoke _ .function _ _, _ | .invoke _ (.unmarked _) _ _, _ => .fixed rfl rfl rfl _
  | .real _ _, hw => nomatch hw
  | .invoke _ (.bridge _) _ _, hw | .invoke _ (.ofClass _) _ _, hw | .invoke _ (.port _) _ _, hw =>
    nomatch hw

/-! ## Prefix operators -/

/-- No prefix operator is seen where a selection begins and no operand follows it. -/
theorem reads_noPrefix {ls rest : List Lexeme} (h : BeginsSelection ls)
    (hrest : startsOperand (headKind rest) = false) : Reads prefixOperator [] (ls ++ rest) (· = none) := by
  obtain ⟨l, more, rfl, hl, hnot, hname⟩ := h
  have hnext : isName l.kind = true → startsOperand (headKind (more ++ rest)) = false := by
    intro hl
    cases more with
    | nil => exact hrest
    | cons l' more =>
      rcases (hname hl).resolve_left (by simp) with h | h <;> rw [headKind_cons] at h <;>
        rw [List.cons_append, headKind_cons, h] <;> rfl
  unfold prefixOperator
  refine .look reads_kind ?_
  rintro _ rfl
  rw [List.nil_append, List.cons_append, headKind_cons]
  cases hk : l.kind with
  | symbol y =>
    rw [hk] at hl
    cases y <;> first | exact .pure rfl | cases hl
  | keyword k =>
    rw [hk] at hnot hnext
    have hsecond : Reads (do return if startsOperand (← kindAt 1) then unaryKeyword k else none) []
        (l :: (more ++ rest)) (· = none) := by
      refine .look (reads_kindAt 1) ?_
      rintro _ rfl
      refine .pure ?_
      show (if startsOperand (headKind (more ++ rest)) then unaryKeyword k else none) = none
      cases hr : k.isReserved with
      | false => rw [hnext (by simp [isName, hr])]; rfl
      | true =>
        have hnone : unaryKeyword k = none := by cases k <;> first | rfl | cases hr
        rw [hnone, ite_self]
    cases k <;> first | exact hsecond | cases hnot
  | _ => exact .pure rfl

/-- The prefix operator is seen where its operand begins, if the operand of a keyword begins no sign. -/
theorem reads_unaryOperator (op : UnaryOperator) {rest : List Lexeme}
    (h : op.isWord = true → startsOperand (headKind rest) = true) :
    Reads prefixOperator [] (op.lexeme :: rest) (· = some op) := by
  have hword : ∀ k, op.isWord = true → unaryKeyword k = some op →
      Reads (do return if startsOperand (← kindAt 1) then unaryKeyword k else none) [] (op.lexeme :: rest)
        (· = some op) := by
    intro k hop hk
    refine .look (reads_kindAt 1) ?_
    rintro _ rfl
    refine .pure ?_
    show (if startsOperand (headKind rest) then unaryKeyword k else none) = some op
    rw [h hop, hk]
    rfl
  unfold prefixOperator
  refine .look reads_kind ?_
  rintro _ rfl
  cases op with
  | minus | plus | not => exact .pure rfl
  | cardinality | empty | notEmpty | first | last => exact hword _ rfl rfl

/-- The operand of a prefix keyword begins as one. -/
theorem startsOperand_operand {op : UnaryOperator} {operand : Expression} (hop : op.isWord = true)
    (hw : operand.isWellFormed = true) (rest : List Lexeme) :
    startsOperand (headKind (operand.lexemesAt (op.operandLevel operand) ++ rest)) = true := by
  rcases Nat.lt_or_ge operand.level (op.operandLevel operand) with hlt | hge
  · rw [Expression.lexemesAt_of_lt hlt]; rfl
  · rw [Expression.lexemesAt_of_le hge]
    cases operand with
    | unary y op' e =>
      -- a signed operand is enclosed, so this one begins with a keyword
      cases op' with
      | minus | plus => simp [UnaryOperator.operandLevel, hop, Expression.isSigned, Expression.level] at hge
      | _ => rfl
    | binary y left op' right =>
      have hlevel : op'.level < 5 := op'.level_lt
      rcases UnaryOperator.operandLevel_cases op (.binary y left op' right) with h | h <;> rw [h] at hge <;>
        simp only [Expression.level] at hge <;> omega
    | _ =>
      obtain ⟨l, more, hl, hstart, _⟩ := beginsSelection _ hw
      rw [Expression.lexemesAt_of_le (by simp [Expression.level])] at hl
      rw [hl]
      exact hstart

/-- Where no prefix operator stands, a selection is read. -/
theorem reads_prefixed_selection (h : ReadsLevel (selection inner) 6 bound) {e : Expression}
    (hw : e.isWellFormed = true) (hb : (e.lexemesAt 6).length ≤ bound) {rest : List Lexeme}
    (hrest : Follows 6 (headKind rest)) (m : Nat) :
    Reads (prefixed inner m) (e.lexemesAt 6) rest (·.bare = e.bare) := by
  cases m with
  | zero => exact h e hw hb rest hrest
  | succ m =>
    unfold prefixed
    refine .look reads_mark fun start _ => ?_
    refine .look (reads_noPrefix (beginsSelection e hw) hrest.operand) ?_
    rintro _ rfl
    exact h e hw hb rest hrest

theorem reads_prefixed (h : ReadsLevel (selection inner) 6 bound) : ∀ (e : Expression), e.isWellFormed = true →
    (e.lexemesAt 5).length ≤ bound → ∀ m, (e.lexemesAt 5).length ≤ m → ∀ rest, Follows 5 (headKind rest) →
    Reads (prefixed inner m) (e.lexemesAt 5) rest (·.bare = e.bare)
  | .unary y op operand, hw, hb, m, hm, rest, hrest => by
    have hlex : (Expression.unary y op operand).lexemesAt 5 =
      op.lexeme :: operand.lexemesAt (op.operandLevel operand) := rfl
    rw [hlex] at hb hm ⊢
    rw [List.length_cons] at hb hm
    obtain ⟨m, rfl⟩ : ∃ m', m = m' + 1 := ⟨m - 1, by omega⟩
    have hwell : operand.isWellFormed = true := hw
    have hoperand : Reads (prefixed inner m) (operand.lexemesAt (op.operandLevel operand)) rest
        (·.bare = operand.bare) := by
      rcases UnaryOperator.operandLevel_cases op operand with hlevel | hlevel <;> rw [hlevel] at hb hm ⊢
      · exact reads_prefixed_selection h hwell (by omega) (hrest.mono (by decide)) m
      · exact reads_prefixed h operand hwell (by omega) m (by omega) rest hrest
    unfold prefixed
    refine .look reads_mark fun start _ => ?_
    refine .look (reads_unaryOperator op fun hop => startsOperand_operand hop hwell rest) ?_
    rintro _ rfl
    refine .step reads_advance fun _ _ => ?_
    refine .last hoperand fun x hx => ?_
    refine .look (reads_extentFrom start) fun z _ => .pure ?_
    rw [Expression.bare, Expression.bare, hx]
  | .binary y left op right, hw, hb, m, _, rest, hrest => by
    have hlevel : (Expression.binary y left op right).level ≠ 5 := ne_of_lt op.level_lt
    rw [← Expression.lexemesAt_succ hlevel] at hb ⊢
    exact reads_prefixed_selection h hw hb (hrest.mono (by decide)) m
  | .integer _ _, hw, hb, m, _, _, hrest | .real _ _, hw, hb, m, _, _, hrest
  | .string _ _, hw, hb, m, _, _, hrest | .boolean _ _, hw, hb, m, _, _, hrest
  | .enumerator _ _ _, hw, hb, m, _, _, hrest | .self _, hw, hb, m, _, _, hrest
  | .selected _, hw, hb, m, _, _, hrest | .parameter _ _ _, hw, hb, m, _, _, hrest
  | .var _ _, hw, hb, m, _, _, hrest | .field _ _ _, hw, hb, m, _, _, hrest
  | .index _ _ _, hw, hb, m, _, _, hrest | .invoke _ _ _ _, hw, hb, m, _, _, hrest =>
    reads_prefixed_selection h hw hb (hrest.mono (by decide)) m

theorem reads_unary (h : ReadsLevel (selection inner) 6 bound) : ReadsLevel (unary inner) 5 bound := by
  intro e hw hb rest hrest
  unfold unary
  refine .look reads_remaining ?_
  rintro _ rfl
  exact reads_prefixed h e hw hb _ (by simp) rest hrest

/-! ## Operators between two operands -/

/-- `operator` knows the operators of level `n` by their tokens. -/
structure KnowsLevel (operator : Token.Kind → Option BinaryOperator) (n : Nat) : Prop where
  known : ∀ op : BinaryOperator, op.level = n → operator op.lexeme.kind = some op
  only : ∀ k op, operator k = some op → k = op.lexeme.kind ∧ op.level = n

theorem KnowsLevel.none {operator : Token.Kind → Option BinaryOperator} {n : Nat} (h : KnowsLevel operator n)
    {k : Token.Kind} (hk : Ends n k) : operator k = none := by
  cases hop : operator k with
  | none => rfl
  | some op =>
    obtain ⟨hkind, hlevel⟩ := h.only k op hop
    have := hk.operator op hkind
    omega

/-- An operand that no operator follows is the whole of its level. -/
theorem reads_leftAssociative_alone {operator : Token.Kind → Option BinaryOperator} {operand : Parser Expression}
    {ls rest : List Lexeme} {P : Expression → Prop} (h : Reads operand ls rest P)
    (hk : operator (headKind rest) = none) : Reads (leftAssociative operator operand) ls rest P := by
  unfold leftAssociative
  refine .look reads_mark fun start _ => ?_
  refine .last h fun x hx => ?_
  refine .look reads_remaining ?_
  rintro m -
  cases m with
  | zero => exact .pure hx
  | succ m =>
    unfold operations
    refine .look reads_kind ?_
    rintro _ rfl
    rw [List.nil_append, hk]
    exact .pure hx

theorem reads_nonAssociative_alone {operator : Token.Kind → Option BinaryOperator} {operand : Parser Expression}
    {ls rest : List Lexeme} {P : Expression → Prop} (h : Reads operand ls rest P)
    (hk : operator (headKind rest) = none) : Reads (nonAssociative operator operand) ls rest P := by
  unfold nonAssociative
  refine .look reads_mark fun start _ => ?_
  refine .last h fun x hx => ?_
  refine .look reads_kind ?_
  rintro _ rfl
  rw [List.nil_append, hk]
  exact .pure hx

/-- The passes of the repetition of operators that have read `e` and can take all of `rest`. -/
def JoinedSoFar (operator : Token.Kind → Option BinaryOperator) (operand : Parser Expression) (e : Expression)
    (rest : List Lexeme) (q : Parser Expression) : Prop :=
  ∃ start m x, q = operations operator operand start m x ∧ rest.length ≤ m ∧ x.bare = e.bare

section

variable {operator : Token.Kind → Option BinaryOperator} {operand : Parser Expression} {n : Nat}

/-- An expression of a tighter level is read before the first pass. -/
theorem reaches_operations (h : ReadsLevel operand (n + 1) bound) {e : Expression} (hw : e.isWellFormed = true)
    (hb : (e.lexemesAt (n + 1)).length ≤ bound) {rest : List Lexeme} (hrest : Follows (n + 1) (headKind rest)) :
    Reaches (leftAssociative operator operand) (e.lexemesAt (n + 1)) rest (JoinedSoFar operator operand e rest) := by
  unfold leftAssociative
  refine .look reads_mark fun start _ => ?_
  refine .last (h e hw hb rest hrest) fun x hx => ?_
  refine .look reads_remaining ?_
  rintro _ rfl
  exact .here ⟨start, _, x, rfl, by simp, hx⟩

/-- One pass takes an operator of the level and its right operand. -/
theorem reaches_operation_pass (hk : KnowsLevel operator n) (h : ReadsLevel operand (n + 1) bound)
    {left right : Expression} {op : BinaryOperator} (hop : op.level = n) (hw : right.isWellFormed = true)
    (hb : (right.lexemesAt (n + 1)).length ≤ bound) {rest : List Lexeme} (hrest : Follows (n + 1) (headKind rest))
    (y : Extent) {q : Parser Expression}
    (hq : JoinedSoFar operator operand left (op.lexeme :: right.lexemesAt (n + 1) ++ rest) q) :
    Reaches q (op.lexeme :: right.lexemesAt (n + 1)) rest
      (JoinedSoFar operator operand (.binary y left op right) rest) := by
  obtain ⟨start, m, x, rfl, hm, hx⟩ := hq
  obtain ⟨m, rfl⟩ : ∃ m', m = m' + 1 := ⟨m - 1, by simp at hm; omega⟩
  unfold operations
  refine .look reads_kind ?_
  rintro _ rfl
  rw [List.cons_append, headKind_cons, hk.known op hop]
  refine .step reads_advance fun _ _ => ?_
  refine .last (h right hw hb rest hrest) fun v hv => ?_
  refine .look (reads_extentFrom start) fun z _ => ?_
  refine .here ⟨start, m, .binary z x op v, rfl, by simp at hm; omega, ?_⟩
  rw [Expression.bare, Expression.bare, hx, hv]

/-- The left operands are taken one pass after another, the innermost first. -/
theorem reaches_leftAssociative (hk : KnowsLevel operator n) (hn : n < 5) (hne : n ≠ 2)
    (h : ReadsLevel operand (n + 1) bound) (e : Expression) (hw : e.isWellFormed = true)
    (hb : (e.lexemesAt n).length ≤ bound) (rest : List Lexeme) (hrest : Follows (n + 1) (headKind rest)) :
    Reaches (leftAssociative operator operand) (e.lexemesAt n) rest (JoinedSoFar operator operand e rest) := by
  by_cases hlevel : e.level = n
  · cases e with
    | binary y left op right =>
      replace hlevel : op.level = n := hlevel
      obtain ⟨hleft, hright⟩ := Bool.and_eq_true_iff.mp hw
      have hlex : (Expression.binary y left op right).lexemesAt n =
          left.lexemesAt n ++ op.lexeme :: right.lexemesAt (n + 1) := by
        have hll : op.leftLevel = n := by rw [BinaryOperator.leftLevel, hlevel, if_neg hne]
        rw [Expression.lexemesAt_of_le (le_of_eq hlevel.symm), Expression.lexemes, hll, hlevel]
        rfl
      rw [hlex] at hb ⊢
      rw [List.length_append, List.length_cons] at hb
      have hfollow : Follows (n + 1) (headKind (op.lexeme :: right.lexemesAt (n + 1) ++ rest)) := by
        rw [← hlevel]
        exact Follows.operatorLexeme op
      have ih := reaches_leftAssociative hk hn hne h left hleft (by omega) _ hfollow
      exact ih.trans fun q hq => reaches_operation_pass hk h hlevel hright (by omega) hrest y hq
    | _ => simp only [Expression.level] at hlevel; omega
  · rw [← Expression.lexemesAt_succ hlevel] at hb ⊢
    exact reaches_operations h hw hb hrest

/-- A level that groups to the left reads what its operands read and one level more. -/
theorem reads_leftAssociative (hk : KnowsLevel operator n) (hn : n < 5) (hne : n ≠ 2)
    (h : ReadsLevel operand (n + 1) bound) : ReadsLevel (leftAssociative operator operand) n bound := by
  intro e hw hb rest hrest
  refine (reaches_leftAssociative hk hn hne h e hw hb rest (hrest.mono n.le_succ)).readsEnd ?_
  rintro _ ⟨start, m, x, rfl, _, hx⟩
  cases m with
  | zero => exact .pure hx
  | succ m =>
    unfold operations
    refine .look reads_kind ?_
    rintro _ rfl
    rw [List.nil_append, hk.none hrest.toEnds]
    exact .pure hx

/-- Comparisons do not chain: both operands are of a tighter level. -/
theorem reads_nonAssociative (hk : KnowsLevel operator 2) (h : ReadsLevel operand 3 bound) :
    ReadsLevel (nonAssociative operator operand) 2 bound := by
  intro e hw hb rest hrest
  by_cases hlevel : e.level = 2
  · cases e with
    | binary y left op right =>
      replace hlevel : op.level = 2 := hlevel
      obtain ⟨hleft, hright⟩ := Bool.and_eq_true_iff.mp hw
      have hlex : (Expression.binary y left op right).lexemesAt 2 =
          left.lexemesAt 3 ++ op.lexeme :: right.lexemesAt 3 := by
        have hll : op.leftLevel = 3 := by rw [BinaryOperator.leftLevel, hlevel, if_pos rfl]
        rw [Expression.lexemesAt_of_le (le_of_eq hlevel.symm), Expression.lexemes, hll, hlevel]
        rfl
      rw [hlex] at hb ⊢
      rw [List.length_append, List.length_cons] at hb
      have hfollow : Follows 3 (headKind (op.lexeme :: right.lexemesAt 3 ++ rest)) := by
        rw [show 3 = op.level + 1 by omega]
        exact Follows.operatorLexeme op
      unfold nonAssociative
      refine .look reads_mark fun start _ => ?_
      refine .bind (h left hleft (by omega) _ hfollow) fun l hl => ?_
      refine .look reads_kind ?_
      rintro _ rfl
      rw [List.cons_append, headKind_cons, hk.known op hlevel]
      refine .step reads_advance fun _ _ => ?_
      refine .last (h right hright (by omega) rest (hrest.mono (by decide))) fun r hr => ?_
      refine .look reads_kind ?_
      rintro _ rfl
      rw [List.nil_append, hk.none hrest.toEnds]
      refine .look (reads_extentFrom start) fun z _ => .pure ?_
      rw [Expression.bare, Expression.bare, hl, hr]
    | _ => simp only [Expression.level] at hlevel; omega
  · rw [← Expression.lexemesAt_succ hlevel] at hb ⊢
    exact reads_nonAssociative_alone (h e hw hb rest (hrest.mono (by decide))) (hk.none hrest.toEnds)

end

/-! ## Whole expressions -/

theorem knowsLevel_product : KnowsLevel productOperator 4 where
  known op h := by cases op <;> first | rfl | cases h
  only k op h := by
    unfold productOperator at h
    split at h <;> cases h <;> exact ⟨rfl, rfl⟩

theorem knowsLevel_sum : KnowsLevel sumOperator 3 where
  known op h := by cases op <;> first | rfl | cases h
  only k op h := by
    unfold sumOperator at h
    split at h <;> cases h <;> exact ⟨rfl, rfl⟩

theorem knowsLevel_comparison : KnowsLevel comparisonOperator 2 where
  known op h := by cases op <;> first | rfl | cases h
  only k op h := by
    unfold comparisonOperator at h
    split at h <;> cases h <;> exact ⟨rfl, rfl⟩

theorem knowsLevel_conjunction : KnowsLevel conjunctionOperator 1 where
  known op h := by cases op <;> first | rfl | cases h
  only k op h := by
    unfold conjunctionOperator at h
    split at h <;> cases h
    exact ⟨rfl, rfl⟩

theorem knowsLevel_disjunction : KnowsLevel disjunctionOperator 0 where
  known op h := by cases op <;> first | rfl | cases h
  only k op h := by
    unfold disjunctionOperator at h
    split at h <;> cases h
    exact ⟨rfl, rfl⟩

/-- From the expressions inside an expression to the whole of it. -/
theorem reads_disjunction (h : ReadsLevel inner 0 bound) : ReadsLevel (disjunction inner) 0 (bound + 1) := by
  have hunary : ReadsLevel (unary inner) 5 (bound + 1) := reads_unary (reads_selection h)
  have hproduct : ReadsLevel (product inner) 4 (bound + 1) :=
    reads_leftAssociative knowsLevel_product (by decide) (by decide) hunary
  have hsum : ReadsLevel (sum inner) 3 (bound + 1) :=
    reads_leftAssociative knowsLevel_sum (by decide) (by decide) hproduct
  have hcomparison : ReadsLevel (comparison inner) 2 (bound + 1) :=
    reads_nonAssociative knowsLevel_comparison hsum
  have hconjunction : ReadsLevel (conjunction inner) 1 (bound + 1) :=
    reads_leftAssociative knowsLevel_conjunction (by decide) (by decide) hcomparison
  exact reads_leftAssociative knowsLevel_disjunction (by decide) (by decide) hconjunction

/-- The bound on the nesting is never met, since every nesting takes a lexeme. -/
theorem reads_expressionWithin : ∀ n, ReadsLevel (expressionWithin n) 0 n
  | 0 => by
    intro e _ hb
    rw [Expression.lexemesAt_of_le (Nat.zero_le _)] at hb
    exact absurd (List.eq_nil_of_length_eq_zero (Nat.le_zero.mp hb)) e.lexemes_ne_nil
  | n + 1 => reads_disjunction (reads_expressionWithin n)

/-- Every well-formed expression is read back. -/
theorem reads_expression (bound : Nat) : ReadsLevel expression 0 bound := by
  intro e hw _ rest hrest
  unfold expression
  refine .look reads_remaining ?_
  rintro _ rfl
  exact reads_expressionWithin _ e hw (by simp only [List.length_append]; omega) rest hrest

/-- An expression in parentheses is read back also where an operand follows it. -/
theorem reads_expression_enclosed {e : Expression} (hw : e.isWellFormed = true) {rest : List Lexeme}
    (hrest : Ends 0 (headKind rest)) : Reads expression (enclosed e.lexemes) rest (·.bare = e.bare) := by
  have hends : ∀ n, Ends n (headKind rest) := fun n =>
    ⟨hrest.dot, hrest.bracket, fun op hop => absurd (hrest.operator op hop) (Nat.not_lt_zero _)⟩
  unfold expression
  refine .look reads_remaining ?_
  rintro _ rfl
  have hinner := reads_enclosed (reads_expressionWithin (enclosed e.lexemes ++ rest).length) hw
    (by rw [List.length_append, length_enclosed]; omega) rest
  have hselection := (reaches_selections hinner).readsEnd fun q hq => reads_selections_end hrest hq
  -- a parenthesis is no prefix operator, whatever follows the closing one
  have hunary : Reads (unary (expressionWithin (enclosed e.lexemes ++ rest).length)) (enclosed e.lexemes) rest
      (·.bare = e.bare) := by
    refine .look reads_remaining ?_
    rintro m -
    cases m with
    | zero => exact hselection
    | succ m =>
      unfold prefixed
      refine .look reads_mark fun start _ => ?_
      refine .look (P := (· = none)) ?_ ?_
      · refine .look reads_kind ?_
        rintro _ rfl
        exact .pure rfl
      · rintro _ rfl
        exact hselection
  exact reads_leftAssociative_alone (reads_leftAssociative_alone (reads_nonAssociative_alone
    (reads_leftAssociative_alone (reads_leftAssociative_alone hunary (knowsLevel_product.none (hends 4)))
      (knowsLevel_sum.none (hends 3))) (knowsLevel_comparison.none (hends 2)))
    (knowsLevel_conjunction.none (hends 1))) (knowsLevel_disjunction.none (hends 0))

/-- Selections are read back where statements begin with them. -/
theorem reads_operand {e : Expression} (hw : e.isWellFormed = true) (hlevel : e.level = 6) {rest : List Lexeme}
    (hrest : Follows 6 (headKind rest)) : Reads operand e.lexemes rest (·.bare = e.bare) := by
  have h := reads_selection (reads_expression e.lexemes.length) e hw
  rw [Expression.lexemesAt_of_le (le_of_eq hlevel.symm)] at h
  exact h (Nat.le_succ _) rest hrest

end Parser

end ObjectAction
