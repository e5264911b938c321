/-
The extents of a tree. Each part of the parser has a lemma that says which outlines it lays out: those of the nodes
that it gives, in the order in which they stand.

Main statement: every node of a body that is read from a text covers what its extent says, and its children stand
inside of it one after another (`parse_faithful`).
-/
import ObjectAction.Body.StatementParser
import ObjectAction.Proofs.Body.Placement

namespace ObjectAction

open Text (Mark)

namespace Parser

/-! ## Arguments -/

section

variable {inner : Parser Expression} (hinner : Lays inner fun e us => us = [e.outline])

include hinner

theorem lays_argumentsUpTo (n : Nat) :
    Lays (argumentsUpTo inner n) fun args us => us = Argument.outlines args := by
  induction n with
  | zero => exact fun _ => .fail
  | succ n ih =>
    refine .mark fun start => ?_
    refine .step (laysNone_name _) fun parameter => ?_
    refine .step (laysNone_symbol _ _) fun _ => ?_
    refine .next hinner ?_
    rintro value _ rfl
    refine .extent "Argument" fun x => ?_
    refine .step (laysNone_eatSymbol _) fun comma => ?_
    cases comma with
    | true =>
      refine .next ih ?_
      rintro rest _ rfl
      exact .pure rfl
    | false => exact .step (laysNone_symbol _ _) fun _ => .pure rfl

theorem lays_arguments : Lays (arguments inner) fun args us => us = Argument.outlines args := by
  intro start
  refine .step (laysNone_symbol _ _) fun _ => ?_
  refine .step (laysNone_eatSymbol _) fun none => ?_
  cases none with
  | true => exact .pure rfl
  | false => exact .step laysNone_remaining fun n => lays_argumentsUpTo hinner n start

/-! ## Primary expressions and selections -/

/-- An expression in parentheses keeps its extent, and so lays out the same. -/
theorem lays_primary : Lays (primary inner) fun e us => us = [e.outline] := by
  have hextent : ∀ {start : Mark} {us : List Outline} {build : Extent → Expression} (name : String),
      (∀ x, (build x).outline = .node name x us) →
      LaysFrom start us (do return build (← extentFrom start)) fun e us => us = [e.outline] := by
    intro start us build name hbuild
    refine .extent name fun x => .pure ?_
    rw [hbuild]
  have harguments : ∀ {start : Mark} {build : Extent → List Argument → Expression} (name : String),
      (∀ x args, (build x args).outline = .node name x (Argument.outlines args)) →
      LaysFrom start [] (do
        let args ← arguments inner
        return build (← extentFrom start) args) fun e us => us = [e.outline] := by
    intro start build name hbuild
    refine .next (lays_arguments hinner) ?_
    rintro args _ rfl
    exact hextent name fun x => hbuild x args
  refine .mark fun start => ?_
  refine .step laysNone_kind fun k => ?_
  split
  case h_1 n => exact .step laysNone_advance fun _ => hextent _ fun x => rfl
  case h_2 r => exact .step laysNone_advance fun _ => hextent _ fun x => rfl
  case h_3 content => exact .step laysNone_advance fun _ => hextent _ fun x => rfl
  case h_4 => exact .step laysNone_advance fun _ => hextent _ fun x => rfl
  case h_5 => exact .step laysNone_advance fun _ => hextent _ fun x => rfl
  case h_6 => exact .step laysNone_advance fun _ => hextent _ fun x => rfl
  case h_7 => exact .step laysNone_advance fun _ => hextent _ fun x => rfl
  case h_8 =>
    refine .step laysNone_advance fun _ => .step (laysNone_symbol _ _) fun _ => ?_
    exact .step (laysNone_name _) fun parameter => hextent _ fun x => rfl
  case h_9 =>
    refine .step laysNone_advance fun _ => .step (laysNone_symbol _ _) fun _ => ?_
    exact .step (laysNone_name _) fun parameter => hextent _ fun x => rfl
  case h_10 =>
    refine .step laysNone_advance fun _ => .next hinner ?_
    rintro e _ rfl
    exact .step (laysNone_symbol _ _) fun _ => .pure rfl
  case h_11 =>
    refine .step laysNone_advance fun _ => .step (laysNone_name _) fun function => ?_
    exact harguments _ fun x args => rfl
  case h_12 owner =>
    refine .step laysNone_advance fun _ => .step (laysNone_name _) fun member => .step laysNone_kind fun k => ?_
    split
    · exact harguments _ fun x args => rfl
    · exact hextent _ fun x => rfl
  case h_13 => exact .step (laysNone_name _) fun variableName => hextent _ fun x => rfl

/-- A selection wraps the expression that it selects from. -/
theorem laysFrom_selections (start : Mark) (n : Nat) (e : Expression) :
    LaysFrom start [e.outline] (selections inner start n e) fun e us => us = [e.outline] := by
  induction n generalizing e with
  | zero => exact .pure rfl
  | succ n ih =>
    refine .step (laysNone_eatSymbol _) fun dot => ?_
    cases dot with
    | true =>
      refine .step (laysNone_name _) fun member => .step laysNone_kind fun k => ?_
      split
      · refine .next (lays_arguments hinner) ?_
        rintro args _ rfl
        exact .extent _ fun x => ih (.invoke x (.receiver e) member args)
      · exact .extent _ fun x => ih (.field x e member)
    | false =>
      refine .step (laysNone_eatSymbol _) fun bracket => ?_
      cases bracket with
      | true =>
        refine .next hinner ?_
        rintro position _ rfl
        refine .step (laysNone_symbol _ _) fun _ => ?_
        exact .extent _ fun x => ih (.index x e position)
      | false => exact .pure rfl

theorem lays_selection : Lays (selection inner) fun e us => us = [e.outline] := by
  refine .mark fun start => .next (lays_primary hinner) ?_
  rintro e _ rfl
  exact .step laysNone_remaining fun n => laysFrom_selections hinner start n e

/-! ## Operators -/

omit hinner in
theorem laysNone_prefixOperator : LaysNone prefixOperator := by
  refine laysNone_kind.bind fun k => ?_
  split
  case h_4 => exact (laysNone_kindAt 1).bind fun _ => .pure _
  all_goals exact .pure _

theorem lays_prefixed (n : Nat) : Lays (prefixed inner n) fun e us => us = [e.outline] := by
  induction n with
  | zero => exact lays_selection hinner
  | succ n ih =>
    refine .mark fun start => .step laysNone_prefixOperator fun op => ?_
    cases op with
    | none => exact lays_selection hinner start
    | some op =>
      refine .step laysNone_advance fun _ => .next ih ?_
      rintro operand _ rfl
      exact .extent _ fun x => .pure rfl

end

section

variable {operator : Token.Kind → Option BinaryOperator} {operand : Parser Expression}
  (hoperand : Lays operand fun e us => us = [e.outline])

include hoperand

/-- An operation wraps its operands. -/
theorem laysFrom_operations (start : Mark) (n : Nat) (left : Expression) :
    LaysFrom start [left.outline] (operations operator operand start n left) fun e us => us = [e.outline] := by
  induction n generalizing left with
  | zero => exact .pure rfl
  | succ n ih =>
    refine .step laysNone_kind fun k => ?_
    cases operator k with
    | none => exact .pure rfl
    | some op =>
      refine .step laysNone_advance fun _ => .next hoperand ?_
      rintro right _ rfl
      exact .extent _ fun x => ih (.binary x left op right)

theorem lays_leftAssociative : Lays (leftAssociative operator operand) fun e us => us = [e.outline] := by
  refine .mark fun start => .next hoperand ?_
  rintro left _ rfl
  exact .step laysNone_remaining fun n => laysFrom_operations hoperand start n left

theorem lays_nonAssociative : Lays (nonAssociative operator operand) fun e us => us = [e.outline] := by
  refine .mark fun start => .next hoperand ?_
  rintro left _ rfl
  refine .step laysNone_kind fun k => ?_
  cases operator k with
  | none => exact .pure rfl
  | some op =>
    refine .step laysNone_advance fun _ => .next hoperand ?_
    rintro right _ rfl
    refine .step laysNone_kind fun k => ?_
    cases (operator k).isSome with
    | true => exact .fail_bind
    | false => exact .extent _ fun x => .pure rfl

end

theorem lays_expressionWithin (n : Nat) : Lays (expressionWithin n) fun e us => us = [e.outline] := by
  induction n with
  | zero => exact fun _ => .fail
  | succ n ih =>
    have hunary : Lays (unary (expressionWithin n)) fun e us => us = [e.outline] :=
      fun start => .step laysNone_remaining fun m => lays_prefixed ih m start
    have hsum : Lays (sum (expressionWithin n)) fun e us => us = [e.outline] :=
      lays_leftAssociative (lays_leftAssociative hunary)
    have hcomparison : Lays (comparison (expressionWithin n)) fun e us => us = [e.outline] := lays_nonAssociative hsum
    exact lays_leftAssociative (lays_leftAssociative hcomparison)

theorem lays_expression : Lays expression fun e us => us = [e.outline] :=
  fun start => .step laysNone_remaining fun n => lays_expressionWithin (n + 1) start

theorem lays_operand : Lays operand fun e us => us = [e.outline] := lays_selection lays_expression

/-! ## Statements without blocks -/

/-- A statement whose children are the outlines that were laid out. -/
def Builds (build : Form) (us : List Outline) : Prop := ∃ name, ∀ x, (build x).outline = .node name x us

theorem laysNone_semicolon : LaysNone semicolon := laysNone_symbol _ _

theorem laysNone_requireAssignable (target : Expression) : LaysNone (requireAssignable target) := by
  unfold requireAssignable
  split
  · exact .pure ()
  · intro start s hs hlaid a s' h
    cases h

theorem lays_expressionStatement : Lays expressionStatement Builds := by
  intro start
  refine .next lays_operand ?_
  rintro e _ rfl
  refine .step laysNone_kind fun k => ?_
  split
  · refine .step (laysNone_requireAssignable e) fun _ => .step laysNone_advance fun _ => .next lays_expression ?_
    rintro value _ rfl
    exact .step laysNone_semicolon fun _ => .pure ⟨_, fun x => rfl⟩
  · split
    · exact .step laysNone_semicolon fun _ => .pure ⟨_, fun x => rfl⟩
    · exact .fail

theorem lays_assignmentTarget : Lays assignmentTarget fun e us => us = [e.outline] := by
  intro start
  refine .next lays_operand ?_
  rintro target _ rfl
  refine .step (laysNone_requireAssignable target) fun _ => ?_
  exact .step (laysNone_symbol _ _) fun _ => .pure rfl

theorem lays_assignment : Lays assignment Builds := by
  intro start
  refine .next lays_assignmentTarget ?_
  rintro target _ rfl
  refine .next lays_expression ?_
  rintro value _ rfl
  exact .step laysNone_semicolon fun _ => .pure ⟨_, fun x => rfl⟩

/-- The callee is a name, so an invocation behind a marker has its arguments as children only. -/
theorem lays_markedInvocation {callee : String → Callee} (hcallee : ∀ owner, (callee owner).outlines = []) :
    Lays (markedInvocation callee) fun e us => us = [e.outline] := by
  refine .mark fun start => .step laysNone_kind fun k => ?_
  split
  case h_1 owner =>
    refine .step laysNone_advance fun _ => .step (laysNone_name _) fun operation => ?_
    refine .next (lays_arguments lays_expression) ?_
    rintro args _ rfl
    refine .extent (callee owner).nodeName fun x => .pure ?_
    rw [Expression.outline, hcallee]
    rfl
  case h_2 => exact .fail

theorem lays_markedStatement {callee : String → Callee} (hcallee : ∀ owner, (callee owner).outlines = []) :
    Lays (markedStatement callee) Builds := by
  intro start
  refine .step laysNone_kind fun k => ?_
  split
  · refine .next (lays_markedInvocation hcallee) ?_
    rintro invocation _ rfl
    exact .step laysNone_semicolon fun _ => .pure ⟨_, fun x => rfl⟩
  · refine .next lays_assignmentTarget ?_
    rintro target _ rfl
    refine .next (lays_markedInvocation hcallee) ?_
    rintro invocation _ rfl
    exact .step laysNone_semicolon fun _ => .pure ⟨_, fun x => rfl⟩

/-! ## Relationships and selections -/

theorem laysNone_relationship : LaysNone relationship := by
  refine (laysNone_name _).bind fun id => laysNone_kind.bind fun k => (laysNone_kindAt 1).bind fun k' => ?_
  split
  · exact laysNone_advance.bind fun _ => laysNone_advance.bind fun _ => .pure _
  · exact .pure _

theorem laysNone_someName (expected : String) : LaysNone (some <$> name expected) :=
  .map (fun start => (laysNone_name expected start).mono fun _ _ h => h)

theorem laysNone_across : LaysNone across := by
  refine (laysNone_keyword _ _).bind fun _ => laysNone_relationship.bind fun rel => ?_
  refine (laysNone_eatKeyword _).bind fun found => ?_
  cases found with
  | true => exact (laysNone_someName _).bind fun link => laysNone_semicolon.bind fun _ => .pure _
  | false => exact (LaysNone.pure none).bind fun link => laysNone_semicolon.bind fun _ => .pure _

theorem lays_relate : Lays relate Builds := by
  intro start
  refine .step (laysNone_name _) fun source => .step (laysNone_keyword _ _) fun _ => ?_
  refine .step (laysNone_name _) fun target => .step laysNone_across fun result => ?_
  obtain ⟨rel, link⟩ := result
  refine .pure ?_
  cases link with
  | none | some => exact ⟨_, fun x => rfl⟩

theorem lays_unrelate : Lays unrelate Builds := by
  intro start
  refine .step (laysNone_name _) fun source => .step (laysNone_keyword _ _) fun _ => ?_
  refine .step (laysNone_name _) fun target => .step laysNone_across fun result => ?_
  obtain ⟨rel, link⟩ := result
  refine .pure ?_
  cases link with
  | none | some => exact ⟨_, fun x => rfl⟩

theorem lays_condition : Lays condition fun e us => us = Expression.optionalOutline e := by
  intro start
  refine .step (laysNone_eatKeyword _) fun found => ?_
  cases found with
  | true => exact (Lays.map (lays_expression.mono fun e us h => h)) start
  | false => exact .pure rfl

theorem laysNone_navigationStart : LaysNone navigationStart := by
  refine (laysNone_eatKeyword _).bind fun found => ?_
  cases found with
  | true => exact .pure _
  | false =>
    refine (laysNone_eatKeyword _).bind fun found => ?_
    cases found with
    | true => exact .pure _
    | false => exact (laysNone_name _).bind fun _ => .pure _

theorem laysFrom_navigationStep (start : Mark) :
    LaysFrom start [] (navigationStep start) fun step us => us = [step.outline] := by
  refine .step (laysNone_name _) fun className => .step (laysNone_symbol _ _) fun _ => ?_
  refine .step laysNone_relationship fun rel => .step (laysNone_symbol _ _) fun _ => ?_
  exact .extent _ fun x => .pure rfl

theorem lays_navigationSteps (n : Nat) :
    Lays (navigationSteps n) fun chain us => us = chain.map NavigationStep.outline := by
  induction n with
  | zero => exact fun _ => .pure rfl
  | succ n ih =>
    refine .mark fun start => .step (laysNone_eatSymbol _) fun arrow => ?_
    cases arrow with
    | true =>
      refine (laysFrom_navigationStep start).bind ?_
      rintro step _ rfl
      refine .next ih ?_
      rintro rest _ rfl
      exact .pure rfl
    | false => exact .pure rfl

theorem lays_navigationChain : Lays navigationChain fun chain us => us = chain.map NavigationStep.outline := by
  refine .mark fun start => .step (laysNone_symbol _ _) fun _ => ?_
  refine (laysFrom_navigationStep start).bind ?_
  rintro step _ rfl
  refine .step laysNone_remaining fun n => .next (lays_navigationSteps n) ?_
  rintro rest _ rfl
  exact .pure rfl

theorem laysNone_cardinality : LaysNone cardinality := by
  refine (laysNone_eatKeyword _).bind fun found => ?_
  cases found with
  | true => exact .pure _
  | false =>
    refine (laysNone_eatKeyword _).bind fun found => ?_
    cases found with
    | true => exact .pure _
    | false =>
      refine (laysNone_eatKeyword _).bind fun found => ?_
      cases found with
      | true => exact .pure _
      | false => exact fun _ => .fail

theorem lays_select : Lays select Builds := by
  intro start
  refine .step laysNone_get fun s => .step laysNone_cardinality fun card => ?_
  refine .step (laysNone_name _) fun result => .step (laysNone_eatKeyword _) fun found => ?_
  cases found with
  | true =>
    have hrest : LaysFrom start [] (do
        expectKeyword .instances "'instances'"
        expectKeyword .of "'of'"
        let className ← name "class name"
        let filter ← condition
        semicolon
        return (Statement.selectFrom · card result className filter)) Builds := by
      refine .step (laysNone_keyword _ _) fun _ => .step (laysNone_keyword _ _) fun _ => ?_
      refine .step (laysNone_name _) fun className => .next lays_condition ?_
      rintro filter _ rfl
      refine .step laysNone_semicolon fun _ => .pure ?_
      cases filter with
      | none | some => exact ⟨_, fun x => rfl⟩
    by_cases hone : card = .one
    · simp only [hone, if_true]
      exact .failAt_bind
    · simp only [hone, if_false]
      exact hrest
  | false =>
    refine .step (laysNone_keyword _ _) fun _ => .step (laysNone_keyword _ _) fun _ => ?_
    refine .step laysNone_navigationStart fun first => .next lays_navigationChain ?_
    rintro chain _ rfl
    refine .next lays_condition ?_
    rintro filter _ rfl
    refine .step laysNone_semicolon fun _ => .pure ?_
    cases filter with
    | none | some => exact ⟨_, fun x => rfl⟩

/-! ## Instances and events -/

theorem lays_createInstance : Lays createInstance Builds := by
  intro start
  refine .step (laysNone_keyword _ _) fun _ => .step laysNone_kind fun k₀ => ?_
  refine .step (laysNone_kindAt 1) fun k₁ => .step (laysNone_kindAt 2) fun k₂ => ?_
  have hrest : ∀ result, LaysFrom start [] (do
      expectKeyword .of "'of'"
      let className ← name "class name"
      semicolon
      return (Statement.create · result className)) Builds := by
    intro result
    refine .step (laysNone_keyword _ _) fun _ => .step (laysNone_name _) fun className => ?_
    refine .step laysNone_semicolon fun _ => .pure ?_
    cases result with
    | none | some => exact ⟨_, fun x => rfl⟩
  dsimp only
  split
  · exact hrest none
  · exact .step (laysNone_someName _) hrest

theorem lays_delete : Lays delete Builds := by
  intro start
  refine .step (laysNone_keyword _ _) fun _ => .step (laysNone_keyword _ _) fun _ => ?_
  exact .step (laysNone_name _) fun instanceName => .step laysNone_semicolon fun _ => .pure ⟨_, fun x => rfl⟩

theorem laysNone_eventMeaning : LaysNone eventMeaning := by
  refine (laysNone_eatSymbol _).bind fun found => ?_
  cases found with
  | true =>
    refine laysNone_kind.bind fun k => ?_
    split
    · exact laysNone_advance.bind fun _ => .pure _
    · exact (laysNone_name _).bind fun _ => .pure _
  | false => exact .pure _

theorem lays_eventSpec : Lays eventSpec fun event us => us = Argument.outlines event.arguments := by
  intro start
  refine .step (laysNone_name _) fun label => .step laysNone_eventMeaning fun meaning => ?_
  refine .step laysNone_kind fun k => ?_
  split
  · refine .next (lays_arguments lays_expression) ?_
    rintro args _ rfl
    exact .pure rfl
  · exact .pure rfl

theorem lays_eventTarget : Lays eventTarget fun target us => us = target.outlines := by
  intro start
  refine .step laysNone_kind fun k => .step (laysNone_kindAt 1) fun k' => ?_
  split
  · exact .step (laysNone_name _) fun className => .step laysNone_advance fun _ => .pure rfl
  · exact .step (laysNone_name _) fun className => .step laysNone_advance fun _ => .pure rfl
  · refine .next lays_expression ?_
    rintro e _ rfl
    exact .pure rfl

theorem lays_addressedEvent :
    Lays addressedEvent fun r us => us = Argument.outlines r.1.arguments ++ r.2.outlines := by
  intro start
  refine .next lays_eventSpec ?_
  rintro event _ rfl
  refine .step (laysNone_keyword _ _) fun _ => .next lays_eventTarget ?_
  rintro target _ rfl
  exact .step laysNone_semicolon fun _ => .pure rfl

theorem lays_createEvent : Lays createEvent Builds := by
  intro start
  refine .step (laysNone_keyword _ _) fun _ => .step (laysNone_name _) fun result => ?_
  refine .step (laysNone_keyword _ _) fun _ => .next lays_addressedEvent ?_
  rintro ⟨event, target⟩ _ rfl
  exact .pure ⟨_, fun x => rfl⟩

theorem lays_create : Lays create Builds := by
  intro start
  refine .step (laysNone_eatKeyword _) fun found => ?_
  cases found with
  | true => exact lays_createInstance start
  | false => exact .step (laysNone_keyword _ _) fun _ => lays_createEvent start

theorem lays_generate : Lays generate Builds := by
  intro start
  refine .step laysNone_kind fun k => .step (laysNone_kindAt 1) fun k' => ?_
  split
  · exact .step (laysNone_name _) fun event => .step laysNone_semicolon fun _ => .pure ⟨_, fun x => rfl⟩
  · refine .next lays_addressedEvent ?_
    rintro ⟨event, target⟩ _ rfl
    exact .pure ⟨_, fun x => rfl⟩

theorem lays_returnValue : Lays returnValue Builds := by
  intro start
  refine .step (laysNone_eatSymbol _) fun found => ?_
  cases found with
  | true => exact .pure ⟨_, fun x => rfl⟩
  | false =>
    refine .next lays_expression ?_
    rintro value _ rfl
    exact .step laysNone_semicolon fun _ => .pure ⟨_, fun x => rfl⟩

/-! ## Blocks -/

section

variable {inner : Parser Statement} (hinner : Lays inner fun st us => us = [st.outline])

include hinner

theorem lays_statementsUpTo (terminators : List Keyword) (n : Nat) :
    Lays (statementsUpTo inner terminators n) fun sts us => us = Statement.outlines sts := by
  induction n with
  | zero => exact fun _ => .pure rfl
  | succ n ih =>
    intro start
    refine .step laysNone_kind fun k => ?_
    split
    · exact .pure rfl
    · refine .step (laysNone_eatSymbol _) fun found => ?_
      cases found with
      | true => exact ih start
      | false =>
        refine .next hinner ?_
        rintro st _ rfl
        refine .next ih ?_
        rintro rest _ rfl
        exact .pure rfl

theorem lays_block (terminators : List Keyword) : Lays (block inner terminators) fun b us => us = [b.outline] := by
  refine .mark fun start => .step laysNone_remaining fun n => .next (lays_statementsUpTo hinner terminators n) ?_
  rintro sts _ rfl
  exact .extent _ fun x => .pure rfl

theorem lays_elifs (n : Nat) : Lays (elifs inner n) fun clauses us => us = Elif.outlines clauses := by
  induction n with
  | zero => exact fun _ => .pure rfl
  | succ n ih =>
    refine .mark fun start => .step (laysNone_eatKeyword _) fun found => ?_
    cases found with
    | true =>
      refine .next lays_expression ?_
      rintro test _ rfl
      refine .next (lays_block hinner branchEnds) ?_
      rintro b _ rfl
      refine .extent "ElifClause" fun x => .next ih ?_
      rintro rest _ rfl
      exact .pure rfl
    | false => exact .pure rfl

theorem lays_branch : Lays (branch inner) Builds := by
  intro start
  refine .next lays_expression ?_
  rintro test _ rfl
  refine .next (lays_block hinner branchEnds) ?_
  rintro b _ rfl
  refine .step laysNone_remaining fun n => .next (lays_elifs hinner n) ?_
  rintro clauses _ rfl
  refine .step (laysNone_eatKeyword _) fun found => ?_
  cases found with
  | true =>
    refine .next (Lays.map (R := fun o us => ∃ b : Block, o = some b ∧ us = [b.outline])
      ((lays_block hinner [.endIf]).mono fun b us h => ⟨b, rfl, h⟩)) ?_
    rintro _ _ ⟨otherwise, rfl, rfl⟩
    exact .step (laysNone_keyword _ _) fun _ => .step laysNone_semicolon fun _ => .pure ⟨_, fun x => rfl⟩
  | false =>
    refine .pure_bind ?_
    exact .step (laysNone_keyword _ _) fun _ => .step laysNone_semicolon fun _ => .pure ⟨_, fun x => rfl⟩

theorem lays_forEach : Lays (forEach inner) Builds := by
  intro start
  refine .step (laysNone_keyword _ _) fun _ => .step (laysNone_name _) fun item => ?_
  refine .step (laysNone_keyword _ _) fun _ => .step (laysNone_name _) fun set => ?_
  refine .next (lays_block hinner [.endFor]) ?_
  rintro b _ rfl
  exact .step (laysNone_keyword _ _) fun _ => .step laysNone_semicolon fun _ => .pure ⟨_, fun x => rfl⟩

theorem lays_whileLoop : Lays (whileLoop inner) Builds := by
  intro start
  refine .next lays_expression ?_
  rintro test _ rfl
  refine .next (lays_block hinner [.endWhile]) ?_
  rintro b _ rfl
  exact .step (laysNone_keyword _ _) fun _ => .step laysNone_semicolon fun _ => .pure ⟨_, fun x => rfl⟩

/-! ## Statements -/

theorem lays_keywordForm {k : Keyword} {p : Parser Form} (h : keywordForm inner k = some p) : Lays p Builds := by
  unfold keywordForm at h
  split at h <;> cases h
  case h_1 => exact fun _ => .step laysNone_semicolon fun _ => .pure ⟨_, fun x => rfl⟩
  case h_2 => exact fun _ => .step laysNone_semicolon fun _ => .pure ⟨_, fun x => rfl⟩
  case h_3 =>
    exact fun _ => .step (laysNone_keyword _ _) fun _ => .step laysNone_semicolon fun _ => .pure ⟨_, fun x => rfl⟩
  case h_4 => exact lays_returnValue
  case h_5 => exact lays_assignment
  case h_6 => exact lays_markedStatement fun _ => rfl
  case h_7 => exact lays_markedStatement fun _ => rfl
  case h_8 => exact lays_markedStatement fun _ => rfl
  case h_9 => exact lays_create
  case h_10 => exact lays_delete
  case h_11 => exact lays_relate
  case h_12 => exact lays_unrelate
  case h_13 => exact lays_select
  case h_14 => exact lays_forEach hinner
  case h_15 => exact lays_whileLoop hinner
  case h_16 => exact lays_branch hinner
  case h_17 => exact lays_generate

theorem lays_form : Lays (form inner) Builds := by
  intro start
  refine .step laysNone_kind fun k => ?_
  split
  · rename_i k
    refine .step (laysNone_kindAt 1) fun k' => ?_
    split
    · exact lays_expressionStatement start
    · split
      · rename_i p hp
        exact .step laysNone_advance fun _ => lays_keywordForm hinner hp start
      · exact lays_expressionStatement start
  · exact lays_expressionStatement start

theorem lays_statement : Lays (statement inner) fun st us => us = [st.outline] := by
  refine .mark fun start => .next (lays_form hinner) ?_
  rintro build us ⟨name, hbuild⟩
  refine .extent name fun x => .pure ?_
  rw [hbuild]
  rfl

end

theorem lays_statementWithin (n : Nat) : Lays (statementWithin n) fun st us => us = [st.outline] := by
  induction n with
  | zero => exact fun _ => .fail
  | succ n ih => exact lays_statement ih

theorem lays_body : Lays body fun b us => us = [b.block.outline] ∧ b.extent = b.block.extent := by
  intro start
  refine .step laysNone_remaining fun n => .next (lays_block (lays_statementWithin (n + 1)) []) ?_
  rintro b _ rfl
  exact .pure ⟨rfl, rfl⟩

end Parser

/-! ## Whole texts -/

/-- A token stands where the text has its spelling; the end of input stands at the end. -/
theorem Token.covers_of_mem {text : String} {t : Token} (ht : t ∈ (tokenize text).tokens) :
    (Extent.mk t.start t.stop t.lexeme).Covers text.toList := by
  rw [tokens_tokenize, List.mem_append, List.mem_singleton] at ht
  rcases ht with ht | rfl
  · obtain ⟨before, inside, after, htext, -, hlexeme, hstart, hstop⟩ := (cut_pieces text.toList).token ht
    refine ⟨before, inside, after, htext, ?_, ?_, hlexeme⟩
    · exact hstart.trans (Mark.start_past before)
    · rw [← Mark.start_past, Mark.past_append]
      exact hstop
  · refine ⟨text.toList, [], [], by simp, Mark.start_past _, ?_, rfl⟩
    rw [List.append_nil]
    exact Mark.start_past _

/-- The tokens of a text stand one after another in it. -/
theorem placed_ofTokens (text : String) : (Stream.ofTokens text.toList (tokenize text).tokens).Placed := by
  have hcovers : ∀ t ∈ (tokenize text).tokens, (Extent.mk t.start t.stop t.lexeme).Covers text.toList :=
    fun t => Token.covers_of_mem
  rw [Token.tokens_tokenize] at hcovers ⊢
  unfold Stream.ofTokens
  rw [List.dropLast_concat, List.getLast?_concat]
  constructor
  case previous => exact .inl rfl
  case start =>
    intro t ht
    obtain ⟨before, inside, after, htext, hstart, -⟩ := hcovers t ht
    exact ⟨⟨before, inside ++ after, by rw [htext, List.append_assoc], hstart⟩, Nat.zero_le _⟩
  case stop =>
    intro t ht
    obtain ⟨before, inside, after, htext, hstart, hstop, -⟩ := hcovers t (List.mem_append_left _ ht)
    refine ⟨⟨before ++ inside, after, htext, hstop⟩, ?_⟩
    dsimp only at hstart hstop
    rw [hstart, hstop]
    simp [Mark.behind, String.ofList_append]
  case forward =>
    refine List.pairwise_append.mpr ⟨Token.pairwise_tokensAt _ _, List.pairwise_singleton _ _, fun t ht u hu => ?_⟩
    obtain ⟨before, inside, after, htext, -, hstop, -⟩ := hcovers t (List.mem_append_left _ ht)
    dsimp only at hstop
    rw [List.mem_singleton.mp hu, hstop]
    show (Mark.behind (before ++ inside)).offset ≤ (Mark.start.past text.toList).offset
    rw [htext, Mark.start_past]
    simp [Mark.behind, String.ofList_append]

theorem body_of_parseTokens {source : String} {tokens : List Token} {b : Body}
    (h : parseTokens source tokens = .ok b) :
    ∃ s', Parser.body (Stream.ofTokens source.toList tokens) = .ok (b, s') := by
  change (Prod.fst <$> Parser.body (Stream.ofTokens source.toList tokens)) = .ok b at h
  cases hrun : Parser.body (Stream.ofTokens source.toList tokens) with
  | error e =>
    rw [hrun] at h
    cases h
  | ok r =>
    rw [hrun] at h
    cases h
    exact ⟨r.2, rfl⟩

/-- A body has the extent of its block. -/
theorem Body.faithful {source : List Char} {b : Body} (h : b.block.outline.Faithful source)
    (hextent : b.extent = b.block.extent) : b.outline.Faithful source := by
  obtain ⟨x, ⟨x', sts⟩⟩ := b
  dsimp only [Block.extent] at hextent
  subst hextent
  have hcovers : x.Covers source := by
    cases h with
    | node covers => exact covers
  refine .node hcovers ?_ ?_ (List.pairwise_singleton _ _)
  · simpa using h
  · intro o ho htext
    rw [List.mem_singleton.mp ho]
    exact ⟨le_refl _, le_refl _⟩

/-- Every node of what is read from a text begins and ends at a place of the text, by bytes as well as by line and
column, and its text is what stands between. Children that are not empty stand inside their parent, and children
stand one after another. Every token stands where its lexeme does, so that no name or node is cut out of the text
at another place. -/
theorem parse_faithful {text : String} {b : Body} (h : parse text = .ok b) :
    b.outline.Faithful (text ++ "\n").toList ∧
      ∀ t ∈ (tokenize (text ++ "\n")).tokens,
        (Extent.mk t.start t.stop t.lexeme).Covers (text ++ "\n").toList := by
  refine ⟨?_, fun t ht => Token.covers_of_mem ht⟩
  obtain ⟨s', hbody⟩ := body_of_parseTokens h
  have hplaced := placed_ofTokens (text ++ "\n")
  obtain ⟨-, hadvances, us, hlaid, rfl, hextent⟩ := Parser.lays_body _ _ hplaced hplaced.laid_nil b s' hbody
  have hblock := hlaid.faithful _ (List.mem_singleton.mpr rfl)
  rw [hadvances.source] at hblock
  exact Body.faithful hblock hextent

/-- A text of two lines, with letters of two bytes, an empty block and parentheses. -/
def wideText : String := "if (\"ä\" == b)\nend if; s = (\"öü\" + s);"

/-- The statements of `wideText` begin and end where they should, and so does everything in them. -/
theorem parse_faithful_wideText : ∃ b, parse wideText = .ok b ∧
    b.block.statements.map Statement.extent =
      [⟨⟨0, 1, 0⟩, ⟨22, 2, 7⟩, "if (\"ä\" == b)\nend if;"⟩, ⟨⟨23, 2, 8⟩, ⟨40, 2, 23⟩, "s = (\"öü\" + s);"⟩] ∧
    b.outline.Faithful (wideText ++ "\n").toList := by
  have hrun : (parse wideText).toOption.map (fun b => b.block.statements.map Statement.extent) = some
      [⟨⟨0, 1, 0⟩, ⟨22, 2, 7⟩, "if (\"ä\" == b)\nend if;"⟩, ⟨⟨23, 2, 8⟩, ⟨40, 2, 23⟩, "s = (\"öü\" + s);"⟩] := by
    decide +kernel
  cases h : parse wideText with
  | error e =>
    rw [h] at hrun
    cases hrun
  | ok b =>
    rw [h] at hrun
    exact ⟨b, rfl, Option.some.inj hrun, (parse_faithful h).1⟩

end ObjectAction
