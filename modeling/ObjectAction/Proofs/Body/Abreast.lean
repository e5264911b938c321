/-
The parser on two streams abreast: their tokens are of the same kinds, one by one, and names are spelled the same, but
the tokens stand at other places. Each part of the parser takes as many tokens from both, and makes the same of them
but for the places, or it fails at corresponding tokens, for the same reason.

`Agrees At R p q` says this of two parsers, where `At` tells which places correspond and `R` compares the results.
There is one lemma for every parser, in the order of their definitions.
-/
import ObjectAction.Proofs.Body.Parallel
import ObjectAction.Proofs.Body.Statement

namespace ObjectAction

open Text (Mark)

/-! ## Tokens, streams and errors -/

/-- Tokens that the parser does not tell apart, at corresponding places. -/
structure Token.Abreast (At : Mark → Mark → Prop) (t u : Token) : Prop where
  kind : u.kind = t.kind
  lexeme : Parser.isName t.kind = true → u.lexeme = t.lexeme
  start : At t.start u.start

structure Stream.Abreast (At : Mark → Mark → Prop) (s s' : Stream) : Prop where
  tokens : List.Forall₂ (Token.Abreast At) s.tokens s'.tokens
  final : s.final.Abreast At s'.final

/-- Errors for the same reason, at corresponding places. -/
structure SyntaxError.Abreast (At : Mark → Mark → Prop) (e e' : SyntaxError) : Prop where
  expected : e'.expected = e.expected
  place : ∃ m m', At m m' ∧ (e.line = m.line ∧ e.column = m.column) ∧ e'.line = m'.line ∧ e'.column = m'.column

/-- Expressions that are the same but for their places, and that begin at corresponding ones. -/
structure Expression.Abreast (At : Mark → Mark → Prop) (e e' : Expression) : Prop where
  bare : e'.bare = e.bare
  start : At e.extent.start e'.extent.start

variable {At : Mark → Mark → Prop}

namespace Stream.Abreast

variable {s s' : Stream}

theorem ahead (h : s.Abreast At s') (n : Nat) :
    (s.tokens[n]?.getD s.final).Abreast At (s'.tokens[n]?.getD s'.final) := by
  have htokens := h.tokens
  generalize s.tokens = ts, s'.tokens = us at htokens
  induction htokens generalizing n with
  | nil => exact h.final
  | cons ht _ ih =>
    cases n with
    | zero => exact ht
    | succ n => exact ih n

theorem current (h : s.Abreast At s') : s.current.Abreast At s'.current := by
  unfold Stream.current
  rw [List.head?_eq_getElem?, List.head?_eq_getElem?]
  exact h.ahead 0

theorem tail (h : s.Abreast At s') : s.tail.Abreast At s'.tail := by
  obtain ⟨source, previous, tokens, final⟩ := s
  obtain ⟨source', previous', tokens', final'⟩ := s'
  obtain ⟨htokens, hfinal⟩ := h
  dsimp only at htokens
  cases htokens with
  | nil => exact ⟨.nil, hfinal⟩
  | cons _ hrest => exact ⟨hrest, hfinal⟩

end Stream.Abreast

namespace Parser

/-! ## Two runs on streams abreast -/

variable {α β γ δ : Type}

/-- Both runs succeed, with related results, or both fail. -/
inductive Agree (At : Mark → Mark → Prop) (R : α → β → Prop) :
    Except SyntaxError (α × Stream) → Except SyntaxError (β × Stream) → Prop
  | ok {a : α} {b : β} {s s' : Stream} (h : R a b) (hs : s.Abreast At s') : Agree At R (.ok (a, s)) (.ok (b, s'))
  | error {e e' : SyntaxError} (h : e.Abreast At e') : Agree At R (.error e) (.error e')

def Agrees (At : Mark → Mark → Prop) (R : α → β → Prop) (p : Parser α) (q : Parser β) : Prop :=
  ∀ s s' : Stream, s.Abreast At s' → Agree At R (p s) (q s')

/-- Two results of which `g` makes the same. -/
abbrev Alike (g : α → γ) (a b : α) : Prop := g b = g a

variable {R : α → β → Prop} {S : γ → δ → Prop} {p : Parser α} {q : Parser β} {f : α → Parser γ} {g : β → Parser δ}

theorem Agree.mono {R' : α → β → Prop} {x : Except SyntaxError (α × Stream)} {y : Except SyntaxError (β × Stream)}
    (h : Agree At R x y) (hR : ∀ a b, R a b → R' a b) : Agree At R' x y := by
  cases h with
  | ok h hs => exact .ok (hR _ _ h) hs
  | error h => exact .error h

theorem Agree.bind {s s' : Stream} (h : Agree At R (p s) (q s'))
    (hf : ∀ a b s₁ s₁', R a b → s₁.Abreast At s₁' → Agree At S (f a s₁) (g b s₁')) :
    Agree At S ((p >>= f) s) ((q >>= g) s') := by
  change Agree At S (p s >>= fun r => f r.1 r.2) (q s' >>= fun r => g r.1 r.2)
  generalize p s = x, q s' = y at h
  cases h with
  | ok h hs => exact hf _ _ _ _ h hs
  | error h => exact .error h

theorem Agrees.pure {a : α} {b : β} (h : R a b) : Agrees At R (Pure.pure a) (Pure.pure b) := fun _ _ hs => .ok h hs

theorem Agrees.bind (h : Agrees At R p q) (hf : ∀ a b, R a b → Agrees At S (f a) (g b)) :
    Agrees At S (p >>= f) (q >>= g) :=
  fun s s' hs => (h s s' hs).bind fun a b s₁ s₁' hab hs₁ => hf a b hab s₁ s₁' hs₁

/-- Both go on with one result. -/
theorem Agrees.same {p q : Parser α} {f : α → Parser γ} {g : α → Parser δ} (h : Agrees At Eq p q)
    (hf : ∀ a, Agrees At S (f a) (g a)) : Agrees At S (p >>= f) (q >>= g) := by
  refine h.bind ?_
  rintro a _ rfl
  exact hf a

theorem Agrees.map {f : α → γ} {g : β → δ} (h : Agrees At R p q) (hf : ∀ a b, R a b → S (f a) (g b)) :
    Agrees At S (f <$> p) (g <$> q) :=
  h.bind fun a b hab => .pure (hf a b hab)

/-! ## Steps -/

/-- A look at something that corresponds in both streams. -/
theorem agrees_look (f : Stream → α) (g : Stream → β) (h : ∀ s s', s.Abreast At s' → R (f s) (g s')) :
    Agrees At R (do return f (← get)) (do return g (← get)) :=
  fun s s' hs => .ok (h s s' hs) hs

theorem agrees_kind : Agrees At Eq kind kind :=
  agrees_look _ _ fun _ _ hs => hs.current.kind.symm

theorem agrees_kindAt (n : Nat) : Agrees At Eq (kindAt n) (kindAt n) :=
  agrees_look _ _ fun _ _ hs => (hs.ahead n).kind.symm

theorem agrees_remaining : Agrees At Eq remaining remaining :=
  agrees_look _ _ fun _ _ hs => hs.tokens.length_eq

theorem agrees_mark : Agrees At At mark mark :=
  agrees_look _ _ fun _ _ hs => hs.current.start

/-- An extent begins where it is asked to. -/
theorem agrees_extentFrom {start start' : Mark} (h : At start start') :
    Agrees At (fun x x' => At x.start x'.start) (extentFrom start) (extentFrom start') := by
  have hstart : ∀ (s : Stream) (m : Mark), (s.extentFrom m).start = m := by
    intro s m
    unfold Stream.extentFrom
    split <;> rfl
  refine agrees_look _ _ fun s s' _ => ?_
  rw [hstart, hstart]
  exact h

theorem agrees_advance : Agrees At Eq advance advance := fun _ _ hs => .ok rfl hs.tail

theorem agrees_failAt {t u : Token} (h : t.Abreast At u) (expected : String) :
    Agrees At R (failAt t expected) (failAt u expected) :=
  fun _ _ _ => .error ⟨rfl, t.start, u.start, h.start, ⟨rfl, rfl⟩, rfl, rfl⟩

theorem agrees_fail (expected : String) : Agrees At R (fail expected) (fail expected) :=
  fun s s' hs => agrees_failAt hs.current expected s s' hs

theorem agrees_eat (p : Token.Kind → Bool) : Agrees At Eq (eat p) (eat p) := by
  refine agrees_kind.same fun k => ?_
  by_cases hp : p k = true
  · rw [if_pos hp]
    exact agrees_advance.same fun _ => .pure rfl
  · rw [if_neg hp]
    exact .pure rfl

/-- What is expected was ahead, where both go on. -/
theorem agree_expect {s s' : Stream} (hs : s.Abreast At s') (p : Token.Kind → Bool) (expected : String) :
    Agree At (fun _ _ => p s.current.kind = true) (expect p expected s) (expect p expected s') := by
  have heat : Agree At (fun a b => a = b ∧ a = p s.current.kind) (eat p s) (eat p s') := by
    rw [eat_eq, eat_eq, hs.current.kind]
    by_cases hp : p s.current.kind = true
    · rw [if_pos hp, if_pos hp]
      exact .ok ⟨rfl, hp.symm⟩ hs.tail
    · rw [if_neg hp, if_neg hp]
      exact .ok ⟨rfl, by simpa using hp⟩ hs
  refine heat.bind ?_
  rintro found _ s₁ s₁' ⟨rfl, hfound⟩ hs₁
  cases found with
  | true => exact .ok hfound.symm hs₁
  | false => exact agrees_fail expected s₁ s₁' hs₁

theorem agrees_expect (p : Token.Kind → Bool) (expected : String) :
    Agrees At Eq (expect p expected) (expect p expected) :=
  fun _ _ hs => (agree_expect hs p expected).mono fun _ _ _ => rfl

theorem agrees_keyword (k : Keyword) (expected : String) :
    Agrees At Eq (expectKeyword k expected) (expectKeyword k expected) :=
  agrees_expect _ expected

theorem agrees_symbol (x : Symbol) (expected : String) :
    Agrees At Eq (expectSymbol x expected) (expectSymbol x expected) :=
  agrees_expect _ expected

/-- A name is spelled the same in both streams. -/
theorem agrees_name (expected : String) : Agrees At Eq (name expected) (name expected) := by
  intro s s' hs
  change Agree At Eq ((expect isName expected >>= fun _ => Pure.pure s.current.lexeme) s)
    ((expect isName expected >>= fun _ => Pure.pure s'.current.lexeme) s')
  refine (agree_expect hs isName expected).bind fun _ _ s₁ s₁' hname hs₁ => ?_
  exact .ok (hs.current.lexeme hname).symm hs₁

theorem agrees_semicolon {a : α} {b : β} (h : R a b) :
    Agrees At R (semicolon >>= fun _ => Pure.pure a) (semicolon >>= fun _ => Pure.pure b) :=
  (agrees_symbol _ _).same fun _ => .pure h

/-! ## Arguments -/

section

variable {inner : Parser Expression} (hinner : Agrees At (Expression.Abreast At) inner inner)

include hinner

theorem agrees_argumentsUpTo (n : Nat) :
    Agrees At (Alike Argument.bareAll) (argumentsUpTo inner n) (argumentsUpTo inner n) := by
  induction n with
  | zero => exact agrees_fail _
  | succ n ih =>
    refine agrees_mark.bind fun start start' hstart => (agrees_name _).same fun parameter => ?_
    refine (agrees_symbol _ _).same fun _ => hinner.bind fun value value' hvalue => ?_
    refine (agrees_extentFrom hstart).bind fun x x' _ => (agrees_eat _).same fun comma => ?_
    cases comma with
    | true =>
      refine ih.bind fun rest rest' hrest => .pure ?_
      simp only [Alike, Argument.bareAll, hvalue.bare, hrest]
    | false =>
      refine (agrees_symbol _ _).same fun _ => .pure ?_
      simp only [Alike, Argument.bareAll, hvalue.bare]

theorem agrees_arguments : Agrees At (Alike Argument.bareAll) (arguments inner) (arguments inner) := by
  refine (agrees_symbol _ _).same fun _ => (agrees_eat _).same fun none => ?_
  cases none with
  | true => exact .pure rfl
  | false => exact agrees_remaining.same fun n => agrees_argumentsUpTo hinner n

/-! ## Primary expressions and selections -/

theorem agrees_primary : Agrees At (Expression.Abreast At) (primary inner) (primary inner) := by
  refine agrees_mark.bind fun start start' hstart => agrees_kind.same fun k => ?_
  split
  · exact agrees_advance.same fun _ => (agrees_extentFrom hstart).bind fun x x' hx => .pure ⟨rfl, hx⟩
  · exact agrees_advance.same fun _ => (agrees_extentFrom hstart).bind fun x x' hx => .pure ⟨rfl, hx⟩
  · exact agrees_advance.same fun _ => (agrees_extentFrom hstart).bind fun x x' hx => .pure ⟨rfl, hx⟩
  · exact agrees_advance.same fun _ => (agrees_extentFrom hstart).bind fun x x' hx => .pure ⟨rfl, hx⟩
  · exact agrees_advance.same fun _ => (agrees_extentFrom hstart).bind fun x x' hx => .pure ⟨rfl, hx⟩
  · exact agrees_advance.same fun _ => (agrees_extentFrom hstart).bind fun x x' hx => .pure ⟨rfl, hx⟩
  · exact agrees_advance.same fun _ => (agrees_extentFrom hstart).bind fun x x' hx => .pure ⟨rfl, hx⟩
  · refine agrees_advance.same fun _ => (agrees_symbol _ _).same fun _ => (agrees_name _).same fun parameter => ?_
    exact (agrees_extentFrom hstart).bind fun x x' hx => .pure ⟨rfl, hx⟩
  · refine agrees_advance.same fun _ => (agrees_symbol _ _).same fun _ => (agrees_name _).same fun parameter => ?_
    exact (agrees_extentFrom hstart).bind fun x x' hx => .pure ⟨rfl, hx⟩
  · refine agrees_advance.same fun _ => hinner.bind fun e e' he => ?_
    exact (agrees_symbol _ _).same fun _ => .pure he
  · refine agrees_advance.same fun _ => (agrees_name _).same fun function => ?_
    refine (agrees_arguments hinner).bind fun args args' hargs => ?_
    refine (agrees_extentFrom hstart).bind fun x x' hx => .pure ⟨?_, hx⟩
    simp only [Expression.bare, hargs]
  · refine agrees_advance.same fun _ => (agrees_name _).same fun member => agrees_kind.same fun k => ?_
    split
    · refine (agrees_arguments hinner).bind fun args args' hargs => ?_
      refine (agrees_extentFrom hstart).bind fun x x' hx => .pure ⟨?_, hx⟩
      simp only [Expression.bare, hargs]
    · exact (agrees_extentFrom hstart).bind fun x x' hx => .pure ⟨rfl, hx⟩
  · refine (agrees_name _).same fun variableName => ?_
    exact (agrees_extentFrom hstart).bind fun x x' hx => .pure ⟨rfl, hx⟩

theorem agrees_selections {start start' : Mark} (hstart : At start start') (n : Nat) {e e' : Expression}
    (he : e.Abreast At e') :
    Agrees At (Expression.Abreast At) (selections inner start n e) (selections inner start' n e') := by
  induction n generalizing e e' with
  | zero => exact .pure he
  | succ n ih =>
    refine (agrees_eat _).same fun dot => ?_
    cases dot with
    | true =>
      refine (agrees_name _).same fun member => agrees_kind.same fun k => ?_
      split
      · refine (agrees_arguments hinner).bind fun args args' hargs => ?_
        refine (agrees_extentFrom hstart).bind fun x x' hx => ih ⟨?_, hx⟩
        simp only [Expression.bare, Callee.bare, he.bare, hargs]
      · refine (agrees_extentFrom hstart).bind fun x x' hx => ih ⟨?_, hx⟩
        simp only [Expression.bare, he.bare]
    | false =>
      refine (agrees_eat _).same fun bracket => ?_
      cases bracket with
      | true =>
        refine hinner.bind fun position position' hposition => (agrees_symbol _ _).same fun _ => ?_
        refine (agrees_extentFrom hstart).bind fun x x' hx => ih ⟨?_, hx⟩
        simp only [Expression.bare, he.bare, hposition.bare]
      | false => exact .pure he

theorem agrees_selection : Agrees At (Expression.Abreast At) (selection inner) (selection inner) := by
  refine agrees_mark.bind fun start start' hstart => (agrees_primary hinner).bind fun e e' he => ?_
  exact agrees_remaining.same fun n => agrees_selections hinner hstart n he

/-! ## Operators -/

omit hinner in
theorem agrees_prefixOperator : Agrees At Eq prefixOperator prefixOperator := by
  refine agrees_kind.same fun k => ?_
  split
  · exact .pure rfl
  · exact .pure rfl
  · exact .pure rfl
  · exact (agrees_kindAt 1).same fun next => .pure rfl
  · exact .pure rfl

theorem agrees_prefixed (n : Nat) : Agrees At (Expression.Abreast At) (prefixed inner n) (prefixed inner n) := by
  induction n with
  | zero => exact agrees_selection hinner
  | succ n ih =>
    refine agrees_mark.bind fun start start' hstart => agrees_prefixOperator.same fun op => ?_
    cases op with
    | none => exact agrees_selection hinner
    | some op =>
      refine agrees_advance.same fun _ => ih.bind fun operand operand' hoperand => ?_
      refine (agrees_extentFrom hstart).bind fun x x' hx => .pure ⟨?_, hx⟩
      simp only [Expression.bare, hoperand.bare]

theorem agrees_unary : Agrees At (Expression.Abreast At) (unary inner) (unary inner) :=
  agrees_remaining.same fun n => agrees_prefixed hinner n

end

section

variable {operator : Token.Kind → Option BinaryOperator} {operand : Parser Expression}
  (hoperand : Agrees At (Expression.Abreast At) operand operand)

include hoperand

theorem agrees_operations {start start' : Mark} (hstart : At start start') (n : Nat) {left left' : Expression}
    (hleft : left.Abreast At left') : Agrees At (Expression.Abreast At) (operations operator operand start n left)
      (operations operator operand start' n left') := by
  induction n generalizing left left' with
  | zero => exact .pure hleft
  | succ n ih =>
    refine agrees_kind.same fun k => ?_
    cases operator k with
    | none => exact .pure hleft
    | some op =>
      refine agrees_advance.same fun _ => hoperand.bind fun right right' hright => ?_
      refine (agrees_extentFrom hstart).bind fun x x' hx => ih ⟨?_, hx⟩
      simp only [Expression.bare, hleft.bare, hright.bare]

theorem agrees_leftAssociative :
    Agrees At (Expression.Abreast At) (leftAssociative operator operand) (leftAssociative operator operand) := by
  refine agrees_mark.bind fun start start' hstart => hoperand.bind fun left left' hleft => ?_
  exact agrees_remaining.same fun n => agrees_operations hoperand hstart n hleft

theorem agrees_nonAssociative :
    Agrees At (Expression.Abreast At) (nonAssociative operator operand) (nonAssociative operator operand) := by
  refine agrees_mark.bind fun start start' hstart => hoperand.bind fun left left' hleft => agrees_kind.same fun k => ?_
  cases operator k with
  | none => exact .pure hleft
  | some op =>
    refine agrees_advance.same fun _ => hoperand.bind fun right right' hright => agrees_kind.same fun k => ?_
    have hrest : Agrees At (Expression.Abreast At) (do return .binary (← extentFrom start) left op right)
        (do return .binary (← extentFrom start') left' op right') := by
      refine (agrees_extentFrom hstart).bind fun x x' hx => .pure ⟨?_, hx⟩
      simp only [Expression.bare, hleft.bare, hright.bare]
    cases (operator k).isSome with
    | true => exact (agrees_fail _).same fun _ => hrest
    | false => exact hrest

end

theorem agrees_expressionWithin (n : Nat) :
    Agrees At (Expression.Abreast At) (expressionWithin n) (expressionWithin n) := by
  induction n with
  | zero => exact agrees_fail _
  | succ n ih =>
    have hsum : Agrees At (Expression.Abreast At) (sum (expressionWithin n)) (sum (expressionWithin n)) :=
      agrees_leftAssociative (agrees_leftAssociative (agrees_unary ih))
    exact agrees_leftAssociative (agrees_leftAssociative (agrees_nonAssociative hsum))

theorem agrees_expression : Agrees At (Expression.Abreast At) expression expression :=
  agrees_remaining.same fun n => agrees_expressionWithin (n + 1)

theorem agrees_operand : Agrees At (Expression.Abreast At) operand operand := agrees_selection agrees_expression

/-! ## Assignments and invocations -/

/-- Forms that build the same statement, wherever it stands. -/
def FormAlike (build build' : Form) : Prop := ∀ x x', (build' x').bare = (build x).bare

/-- An expression that cannot be written is reported where it begins. -/
theorem agrees_requireAssignable {target target' : Expression} (h : target.Abreast At target') :
    Agrees At Eq (requireAssignable target) (requireAssignable target') := by
  unfold requireAssignable
  rw [isAssignable_of_bare h.bare]
  split
  · exact .pure rfl
  · exact fun _ _ _ => .error ⟨rfl, target.extent.start, target'.extent.start, h.start, ⟨rfl, rfl⟩, rfl, rfl⟩

theorem agrees_expressionStatement : Agrees At FormAlike expressionStatement expressionStatement := by
  refine agrees_operand.bind fun e e' he => agrees_kind.same fun k => ?_
  rw [isInvocation_of_bare he.bare]
  split
  · refine (agrees_requireAssignable he).same fun _ => agrees_advance.same fun _ => ?_
    refine agrees_expression.bind fun value value' hvalue => agrees_semicolon fun x x' => ?_
    rw [Statement.bare, Statement.bare, he.bare, hvalue.bare]
  · split
    · refine agrees_semicolon fun x x' => ?_
      rw [Statement.bare, Statement.bare, he.bare]
    · exact agrees_fail _

theorem agrees_assignmentTarget : Agrees At (Expression.Abreast At) assignmentTarget assignmentTarget := by
  refine agrees_operand.bind fun target target' htarget => (agrees_requireAssignable htarget).same fun _ => ?_
  exact (agrees_symbol _ _).same fun _ => .pure htarget

theorem agrees_assignment : Agrees At FormAlike assignment assignment := by
  refine agrees_assignmentTarget.bind fun target target' htarget => ?_
  refine agrees_expression.bind fun value value' hvalue => agrees_semicolon fun x x' => ?_
  rw [Statement.bare, Statement.bare, htarget.bare, hvalue.bare]

theorem agrees_markedInvocation (callee : String → Callee) :
    Agrees At (Expression.Abreast At) (markedInvocation callee) (markedInvocation callee) := by
  refine agrees_mark.bind fun start start' hstart => agrees_kind.same fun k => ?_
  split
  · refine agrees_advance.same fun _ => (agrees_name _).same fun operation => ?_
    refine (agrees_arguments agrees_expression).bind fun args args' hargs => ?_
    refine (agrees_extentFrom hstart).bind fun x x' hx => .pure ⟨?_, hx⟩
    simp only [Expression.bare, hargs]
  · exact agrees_fail _

theorem agrees_markedStatement (callee : String → Callee) :
    Agrees At FormAlike (markedStatement callee) (markedStatement callee) := by
  refine agrees_kind.same fun k => ?_
  split
  · refine (agrees_markedInvocation callee).bind fun e e' he => agrees_semicolon fun x x' => ?_
    rw [Statement.bare, Statement.bare, he.bare]
  · refine agrees_assignmentTarget.bind fun target target' htarget => ?_
    refine (agrees_markedInvocation callee).bind fun e e' he => agrees_semicolon fun x x' => ?_
    rw [Statement.bare, Statement.bare, htarget.bare, he.bare]

/-! ## Relationships and selections -/

theorem agrees_relationship : Agrees At Eq relationship relationship := by
  refine (agrees_name _).same fun id => agrees_kind.same fun k => (agrees_kindAt 1).same fun next => ?_
  split
  · exact agrees_advance.same fun _ => agrees_advance.same fun _ => .pure rfl
  · exact .pure rfl

theorem agrees_someName (expected : String) : Agrees At Eq (some <$> name expected) (some <$> name expected) :=
  (agrees_name expected).map fun _ _ h => congrArg some h

theorem agrees_across : Agrees At Eq across across := by
  refine (agrees_keyword _ _).same fun _ => agrees_relationship.same fun rel => (agrees_eat _).same fun found => ?_
  cases found with
  | true => exact (agrees_someName _).same fun link => agrees_semicolon rfl
  | false => exact agrees_semicolon rfl

theorem agrees_relate : Agrees At FormAlike relate relate := by
  refine (agrees_name _).same fun source => (agrees_keyword _ _).same fun _ => (agrees_name _).same fun target => ?_
  exact agrees_across.same fun r => .pure fun x x' => rfl

theorem agrees_unrelate : Agrees At FormAlike unrelate unrelate := by
  refine (agrees_name _).same fun source => (agrees_keyword _ _).same fun _ => (agrees_name _).same fun target => ?_
  exact agrees_across.same fun r => .pure fun x x' => rfl

theorem agrees_condition : Agrees At (Alike (Option.map Expression.bare)) condition condition := by
  refine (agrees_eat _).same fun found => ?_
  cases found with
  | true => exact agrees_expression.map fun e e' he => congrArg some he.bare
  | false => exact .pure rfl

theorem agrees_navigationStart : Agrees At Eq navigationStart navigationStart := by
  refine (agrees_eat _).same fun found => ?_
  cases found with
  | true => exact .pure rfl
  | false =>
    refine (agrees_eat _).same fun found => ?_
    cases found with
    | true => exact .pure rfl
    | false => exact (agrees_name _).same fun _ => .pure rfl

theorem agrees_navigationStep {start start' : Mark} (hstart : At start start') :
    Agrees At (Alike NavigationStep.bare) (navigationStep start) (navigationStep start') := by
  refine (agrees_name _).same fun className => (agrees_symbol _ _).same fun _ => ?_
  refine agrees_relationship.same fun rel => (agrees_symbol _ _).same fun _ => ?_
  exact (agrees_extentFrom hstart).bind fun x x' _ => .pure rfl

theorem agrees_navigationSteps (n : Nat) :
    Agrees At (Alike (List.map NavigationStep.bare)) (navigationSteps n) (navigationSteps n) := by
  induction n with
  | zero => exact .pure rfl
  | succ n ih =>
    refine agrees_mark.bind fun start start' hstart => (agrees_eat _).same fun found => ?_
    cases found with
    | true =>
      refine (agrees_navigationStep hstart).bind fun step step' hstep => ih.bind fun rest rest' hrest => .pure ?_
      exact congrArg₂ List.cons hstep hrest
    | false => exact .pure rfl

theorem agrees_navigationChain :
    Agrees At (Alike (List.map NavigationStep.bare)) navigationChain navigationChain := by
  refine agrees_mark.bind fun start start' hstart => (agrees_symbol _ _).same fun _ => ?_
  refine (agrees_navigationStep hstart).bind fun step step' hstep => agrees_remaining.same fun n => ?_
  exact (agrees_navigationSteps n).bind fun rest rest' hrest => .pure (congrArg₂ List.cons hstep hrest)

theorem agrees_cardinality : Agrees At Eq cardinality cardinality := by
  refine (agrees_eat _).same fun found => ?_
  cases found with
  | true => exact .pure rfl
  | false =>
    refine (agrees_eat _).same fun found => ?_
    cases found with
    | true => exact .pure rfl
    | false =>
      refine (agrees_eat _).same fun found => ?_
      cases found with
      | true => exact .pure rfl
      | false => exact agrees_fail _

/-- A cardinality that is wrong is reported at the token where the selection began. -/
theorem agrees_selectAt {first first' : Token} (hfirst : first.Abreast At first') :
    Agrees At FormAlike (selectAt first) (selectAt first') := by
  refine agrees_cardinality.same fun card => (agrees_name _).same fun result => (agrees_eat _).same fun found => ?_
  cases found with
  | true =>
    have hrest : Agrees At FormAlike
        (do
          expectKeyword .instances "'instances'"
          expectKeyword .of "'of'"
          let className ← name "class name"
          let filter ← condition
          semicolon
          return (Statement.selectFrom · card result className filter))
        (do
          expectKeyword .instances "'instances'"
          expectKeyword .of "'of'"
          let className ← name "class name"
          let filter ← condition
          semicolon
          return (Statement.selectFrom · card result className filter)) := by
      refine (agrees_keyword _ _).same fun _ => (agrees_keyword _ _).same fun _ => ?_
      refine (agrees_name _).same fun className => agrees_condition.bind fun filter filter' hfilter => ?_
      refine agrees_semicolon fun x x' => ?_
      rw [Statement.bare, Statement.bare, hfilter]
    by_cases hone : card = .one
    · simp only [hone, if_true] at hrest ⊢
      exact (agrees_failAt hfirst _).same fun _ => hrest
    · simp only [hone, if_false]
      exact hrest
  | false =>
    refine (agrees_keyword _ _).same fun _ => (agrees_keyword _ _).same fun _ => ?_
    refine agrees_navigationStart.same fun start => agrees_navigationChain.bind fun chain chain' hchain => ?_
    refine agrees_condition.bind fun filter filter' hfilter => agrees_semicolon fun x x' => ?_
    rw [Statement.bare, Statement.bare, hchain, hfilter]

theorem agrees_select : Agrees At FormAlike select select := by
  rw [select_eq]
  exact fun s s' hs => agrees_selectAt hs.current s s' hs

/-! ## Instances and events -/

theorem agrees_createInstance : Agrees At FormAlike createInstance createInstance := by
  refine (agrees_keyword _ _).same fun _ => agrees_kind.same fun k => ?_
  refine (agrees_kindAt 1).same fun next => (agrees_kindAt 2).same fun third => ?_
  have hrest : ∀ result : Option String, Agrees At FormAlike
      (do
        expectKeyword .of "'of'"
        let className ← name "class name"
        semicolon
        return (Statement.create · result className))
      (do
        expectKeyword .of "'of'"
        let className ← name "class name"
        semicolon
        return (Statement.create · result className)) := by
    intro result
    refine (agrees_keyword _ _).same fun _ => (agrees_name _).same fun className => ?_
    exact agrees_semicolon fun x x' => rfl
  dsimp only
  split
  · exact hrest none
  · exact (agrees_someName _).same fun result => hrest result

theorem agrees_delete : Agrees At FormAlike delete delete := by
  refine (agrees_keyword _ _).same fun _ => (agrees_keyword _ _).same fun _ => (agrees_name _).same fun name => ?_
  exact agrees_semicolon fun x x' => rfl

theorem agrees_eventMeaning : Agrees At Eq eventMeaning eventMeaning := by
  refine (agrees_eat _).same fun found => ?_
  cases found with
  | true =>
    refine agrees_kind.same fun k => ?_
    split
    · exact agrees_advance.same fun _ => .pure rfl
    · exact (agrees_name _).same fun _ => .pure rfl
  | false => exact .pure rfl

theorem agrees_eventSpec : Agrees At (Alike EventSpec.bare) eventSpec eventSpec := by
  refine (agrees_name _).same fun label => agrees_eventMeaning.same fun meaning => agrees_kind.same fun k => ?_
  split
  · refine (agrees_arguments agrees_expression).bind fun args args' hargs => .pure ?_
    simp only [Alike, EventSpec.bare, hargs]
  · exact .pure rfl

theorem agrees_eventTarget : Agrees At (Alike EventTarget.bare) eventTarget eventTarget := by
  refine agrees_kind.same fun k => (agrees_kindAt 1).same fun next => ?_
  split
  · exact (agrees_name _).same fun className => agrees_advance.same fun _ => .pure rfl
  · exact (agrees_name _).same fun className => agrees_advance.same fun _ => .pure rfl
  · exact agrees_expression.bind fun e e' he => .pure (congrArg EventTarget.receiver he.bare)

theorem agrees_addressedEvent : Agrees At (Alike fun r : EventSpec × EventTarget => (r.1.bare, r.2.bare))
    addressedEvent addressedEvent := by
  refine agrees_eventSpec.bind fun event event' hevent => (agrees_keyword _ _).same fun _ => ?_
  refine agrees_eventTarget.bind fun target target' htarget => agrees_semicolon ?_
  exact congrArg₂ Prod.mk hevent htarget

theorem agrees_createEvent : Agrees At FormAlike createEvent createEvent := by
  refine (agrees_keyword _ _).same fun _ => (agrees_name _).same fun result => (agrees_keyword _ _).same fun _ => ?_
  refine agrees_addressedEvent.bind fun r r' hr => .pure fun x x' => ?_
  obtain ⟨hevent, htarget⟩ := Prod.mk.inj hr
  rw [Statement.bare, Statement.bare, hevent, htarget]

theorem agrees_create : Agrees At FormAlike create create := by
  refine (agrees_eat _).same fun found => ?_
  cases found with
  | true => exact agrees_createInstance
  | false => exact (agrees_keyword _ _).same fun _ => agrees_createEvent

theorem agrees_generate : Agrees At FormAlike generate generate := by
  refine agrees_kind.same fun k => (agrees_kindAt 1).same fun next => ?_
  split
  · exact (agrees_name _).same fun event => agrees_semicolon fun x x' => rfl
  · refine agrees_addressedEvent.bind fun r r' hr => .pure fun x x' => ?_
    obtain ⟨hevent, htarget⟩ := Prod.mk.inj hr
    rw [Statement.bare, Statement.bare, hevent, htarget]

theorem agrees_returnValue : Agrees At FormAlike returnValue returnValue := by
  refine (agrees_eat _).same fun found => ?_
  cases found with
  | true => exact .pure fun x x' => rfl
  | false =>
    refine agrees_expression.bind fun value value' hvalue => agrees_semicolon fun x x' => ?_
    simp only [Statement.bare, Option.map_some, hvalue.bare]

/-! ## Blocks -/

section

variable {inner : Parser Statement} (hinner : Agrees At (Alike Statement.bare) inner inner)

include hinner

theorem agrees_statementsUpTo (terminators : List Keyword) (n : Nat) : Agrees At (Alike Statement.bareAll)
    (statementsUpTo inner terminators n) (statementsUpTo inner terminators n) := by
  induction n with
  | zero => exact .pure rfl
  | succ n ih =>
    refine agrees_kind.same fun k => ?_
    split
    · exact .pure rfl
    · refine (agrees_eat _).same fun found => ?_
      cases found with
      | true => exact ih
      | false =>
        refine hinner.bind fun st st' hst => ih.bind fun rest rest' hrest => .pure ?_
        exact congrArg₂ List.cons hst hrest

theorem agrees_block (terminators : List Keyword) :
    Agrees At (Alike Block.bare) (block inner terminators) (block inner terminators) := by
  refine agrees_mark.bind fun start start' hstart => agrees_remaining.same fun n => ?_
  refine (agrees_statementsUpTo hinner terminators n).bind fun sts sts' hsts => ?_
  exact (agrees_extentFrom hstart).bind fun x x' _ => .pure (congrArg (Block.mk .nowhere) hsts)

theorem agrees_elifs (n : Nat) : Agrees At (Alike Elif.bareAll) (elifs inner n) (elifs inner n) := by
  induction n with
  | zero => exact .pure rfl
  | succ n ih =>
    refine agrees_mark.bind fun start start' hstart => (agrees_eat _).same fun found => ?_
    cases found with
    | true =>
      refine agrees_expression.bind fun test test' htest => (agrees_block hinner branchEnds).bind fun b b' hb => ?_
      refine (agrees_extentFrom hstart).bind fun x x' _ => ih.bind fun rest rest' hrest => .pure ?_
      simp only [Alike, Elif.bareAll, htest.bare, hb, hrest]
    | false => exact .pure rfl

theorem agrees_branch : Agrees At FormAlike (branch inner) (branch inner) := by
  refine agrees_expression.bind fun test test' htest => (agrees_block hinner branchEnds).bind fun b b' hb => ?_
  refine agrees_remaining.same fun n => (agrees_elifs hinner n).bind fun clauses clauses' hclauses => ?_
  refine (agrees_eat _).same fun found => ?_
  cases found with
  | true =>
    have hotherwise : Agrees At (fun o o' => ∃ b b' : Block, o = some b ∧ o' = some b' ∧ b'.bare = b.bare)
        (some <$> block inner [.endIf]) (some <$> block inner [.endIf]) :=
      (agrees_block hinner [.endIf]).map fun b b' hb => ⟨b, b', rfl, rfl, hb⟩
    refine hotherwise.bind ?_
    rintro _ _ ⟨otherwise, otherwise', rfl, rfl, ho⟩
    refine (agrees_keyword _ _).same fun _ => agrees_semicolon fun x x' => ?_
    rw [Statement.bare, Statement.bare, htest.bare, hb, hclauses, ho]
  | false =>
    refine (agrees_keyword _ _).same fun _ => agrees_semicolon fun x x' => ?_
    rw [Statement.bare, Statement.bare, htest.bare, hb, hclauses]

theorem agrees_forEach : Agrees At FormAlike (forEach inner) (forEach inner) := by
  refine (agrees_keyword _ _).same fun _ => (agrees_name _).same fun item => (agrees_keyword _ _).same fun _ => ?_
  refine (agrees_name _).same fun set => (agrees_block hinner [.endFor]).bind fun b b' hb => ?_
  refine (agrees_keyword _ _).same fun _ => agrees_semicolon fun x x' => ?_
  rw [Statement.bare, Statement.bare, hb]

theorem agrees_whileLoop : Agrees At FormAlike (whileLoop inner) (whileLoop inner) := by
  refine agrees_expression.bind fun test test' htest => (agrees_block hinner [.endWhile]).bind fun b b' hb => ?_
  refine (agrees_keyword _ _).same fun _ => agrees_semicolon fun x x' => ?_
  rw [Statement.bare, Statement.bare, htest.bare, hb]

/-! ## Statements -/

theorem agrees_keywordForm {k : Keyword} {p : Parser Form} (h : keywordForm inner k = some p) :
    Agrees At FormAlike p p := by
  unfold keywordForm at h
  split at h <;> cases h
  case h_1 => exact agrees_semicolon fun x x' => rfl
  case h_2 => exact agrees_semicolon fun x x' => rfl
  case h_3 => exact (agrees_keyword _ _).same fun _ => agrees_semicolon fun x x' => rfl
  case h_4 => exact agrees_returnValue
  case h_5 => exact agrees_assignment
  case h_6 => exact agrees_markedStatement _
  case h_7 => exact agrees_markedStatement _
  case h_8 => exact agrees_markedStatement _
  case h_9 => exact agrees_create
  case h_10 => exact agrees_delete
  case h_11 => exact agrees_relate
  case h_12 => exact agrees_unrelate
  case h_13 => exact agrees_select
  case h_14 => exact agrees_forEach hinner
  case h_15 => exact agrees_whileLoop hinner
  case h_16 => exact agrees_branch hinner
  case h_17 => exact agrees_generate

theorem agrees_form : Agrees At FormAlike (form inner) (form inner) := by
  refine agrees_kind.same fun k => ?_
  split
  · rename_i k
    refine (agrees_kindAt 1).same fun next => ?_
    split
    · exact agrees_expressionStatement
    · cases hform : keywordForm inner k with
      | none => exact agrees_expressionStatement
      | some p => exact agrees_advance.same fun _ => agrees_keywordForm hinner hform
  · exact agrees_expressionStatement

theorem agrees_statement : Agrees At (Alike Statement.bare) (statement inner) (statement inner) := by
  refine agrees_mark.bind fun start start' hstart => (agrees_form hinner).bind fun build build' hbuild => ?_
  exact (agrees_extentFrom hstart).bind fun x x' _ => .pure (hbuild x x')

end

theorem agrees_statementWithin (n : Nat) :
    Agrees At (Alike Statement.bare) (statementWithin n) (statementWithin n) := by
  induction n with
  | zero => exact agrees_fail _
  | succ n ih => exact agrees_statement ih

theorem agrees_body : Agrees At (Alike Body.bare) body body := by
  refine agrees_remaining.same fun n => (agrees_block (agrees_statementWithin (n + 1)) []).bind fun b b' hb => ?_
  exact .pure (congrArg (Body.mk .nowhere) hb)

end Parser

end ObjectAction
