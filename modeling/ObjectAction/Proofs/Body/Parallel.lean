/-
The parser on a text and on a longer one, side by side. Each of its parts has a lemma that says how it runs where its
text stands inside a longer one: with the same result, moved to its new place. The parsers of statements take their
semicolon themselves, and nothing that matters is looked at behind it.
-/
import ObjectAction.Proofs.Body.Relocation

namespace ObjectAction

open Text (Mark Shift)

namespace Parser

variable {F : Frame} {n : Nat}

/-! ## Arguments -/

section

variable {inner inner' : Parser Expression}
  (hinner : ∀ n, RunsTo F n inner inner' (Expression.moved F.shift))

include hinner

theorem runs_argumentsUpTo {k m : Nat} (hle : k ≤ m) :
    RunsTo F n (argumentsUpTo inner k) (argumentsUpTo inner' m) (Argument.allMoved F.shift) := by
  induction k generalizing m with
  | zero => exact .fail
  | succ k ih =>
    obtain ⟨m, rfl⟩ := Nat.exists_eq_add_of_lt (show 0 < m by omega)
    refine .mark fun start hstart => (runs_name _).same fun parameter => ?_
    refine (runs_symbol _ _).same fun _ => (hinner n).next fun value => ?_
    refine .extentFrom hstart fun x => (runs_eat _).same fun comma => ?_
    cases comma with
    | true => exact (ih (by omega)).next fun rest => .pure rfl
    | false => exact (runs_symbol _ _).same fun _ => .pure rfl

theorem runs_arguments : RunsTo F n (arguments inner) (arguments inner') (Argument.allMoved F.shift) := by
  refine (runs_symbol _ _).same fun _ => (runs_eat _).same fun none => ?_
  cases none with
  | true => exact .pure rfl
  | false => exact .remaining fun k m hle => runs_argumentsUpTo hinner hle

/-! ## Primary expressions and selections -/

theorem runs_primary : RunsTo F n (primary inner) (primary inner') (Expression.moved F.shift) := by
  refine .mark fun start hstart => .kind fun k => ?_
  split
  · exact .advance (.extentFrom hstart fun x => .pure rfl)
  · exact .advance (.extentFrom hstart fun x => .pure rfl)
  · exact .advance (.extentFrom hstart fun x => .pure rfl)
  · exact .advance (.extentFrom hstart fun x => .pure rfl)
  · exact .advance (.extentFrom hstart fun x => .pure rfl)
  · exact .advance (.extentFrom hstart fun x => .pure rfl)
  · exact .advance (.extentFrom hstart fun x => .pure rfl)
  · refine .advance ((runs_symbol _ _).same fun _ => (runs_name _).same fun parameter => ?_)
    exact .extentFrom hstart fun x => .pure rfl
  · refine .advance ((runs_symbol _ _).same fun _ => (runs_name _).same fun parameter => ?_)
    exact .extentFrom hstart fun x => .pure rfl
  · exact .advance ((hinner _).next fun e => (runs_symbol _ _).same fun _ => .pure rfl)
  · refine .advance ((runs_name _).same fun function => (runs_arguments hinner).next fun args => ?_)
    exact .extentFrom hstart fun x => .pure rfl
  · refine .advance ((runs_name _).same fun member => .kind fun k => ?_)
    split
    · exact (runs_arguments hinner).next fun args => .extentFrom hstart fun x => .pure rfl
    · exact .extentFrom hstart fun x => .pure rfl
  · exact (runs_name _).same fun variableName => .extentFrom hstart fun x => .pure rfl

/-- Every pass takes a token, so as many passes as tokens are enough. -/
theorem runs_selections {start : Mark} (hstart : start.In F.inside) {m : Nat} (hle : n ≤ m) (e : Expression) :
    RunsTo F n (selections inner start n e) (selections inner' (start.moved F.shift) m (e.moved F.shift))
      (Expression.moved F.shift) := by
  induction n generalizing m e with
  | zero => exact .pure_of_zero rfl
  | succ n ih =>
    obtain ⟨m, rfl⟩ := Nat.exists_eq_add_of_lt (show 0 < m by omega)
    refine .eat ?_ (.eat ?_ (.pure rfl))
    · refine (runs_name _).same fun member => .kind fun k => ?_
      split
      · refine (runs_arguments hinner).next fun args => .extentFrom hstart fun x => ?_
        exact ih (by omega) (.invoke x (.receiver e) member args)
      · exact .extentFrom hstart fun x => ih (by omega) (.field x e member)
    · refine (hinner _).next fun position => (runs_symbol _ _).same fun _ => .extentFrom hstart fun x => ?_
      exact ih (by omega) (.index x e position)

theorem runs_selection : RunsTo F n (selection inner) (selection inner') (Expression.moved F.shift) := by
  refine .mark fun start hstart => (runs_primary hinner).next fun e => ?_
  exact .remaining fun k m hle => runs_selections hinner hstart hle e

/-! ## Operators -/

omit hinner in
/-- What follows a keyword is looked at, and a keyword is no semicolon. -/
theorem runs_prefixOperator : Runs F n false prefixOperator prefixOperator Eq := by
  intro s hn
  refine .kind ?_
  split
  · exact .pure rfl
  · exact .pure rfl
  · exact .pure rfl
  · rename_i k _ hk
    exact .kindAt_one (by rw [hk]; nofun) (.pure rfl)
  · exact .pure rfl

theorem runs_prefixed {m : Nat} (hle : n ≤ m) : RunsTo F n (prefixed inner n) (prefixed inner' m)
    (Expression.moved F.shift) := by
  induction n generalizing m with
  | zero => exact Runs.of_zero (runs_selection hinner) _
  | succ n ih =>
    obtain ⟨m, rfl⟩ := Nat.exists_eq_add_of_lt (show 0 < m by omega)
    refine .mark fun start hstart => runs_prefixOperator.same fun op => ?_
    cases op with
    | none => exact runs_selection hinner
    | some op => exact .advance ((ih (by omega)).next fun operand => .extentFrom hstart fun x => .pure rfl)

theorem runs_unary : RunsTo F n (unary inner) (unary inner') (Expression.moved F.shift) :=
  .remaining fun _ _ hle => runs_prefixed hinner hle

end

section

variable {operator : Token.Kind → Option BinaryOperator} {operand operand' : Parser Expression}
  (hoperand : ∀ n, RunsTo F n operand operand' (Expression.moved F.shift))

include hoperand

theorem runs_operations {start : Mark} (hstart : start.In F.inside) {m : Nat} (hle : n ≤ m) (left : Expression) :
    RunsTo F n (operations operator operand start n left)
      (operations operator operand' (start.moved F.shift) m (left.moved F.shift))
      (Expression.moved F.shift) := by
  induction n generalizing m left with
  | zero => exact .pure_of_zero rfl
  | succ n ih =>
    obtain ⟨m, rfl⟩ := Nat.exists_eq_add_of_lt (show 0 < m by omega)
    refine .kind fun k => ?_
    cases operator k with
    | none => exact .pure rfl
    | some op =>
      refine .advance ((hoperand _).next fun right => .extentFrom hstart fun x => ?_)
      exact ih (by omega) (.binary x left op right)

theorem runs_leftAssociative : RunsTo F n (leftAssociative operator operand) (leftAssociative operator operand')
    (Expression.moved F.shift) := by
  refine .mark fun start hstart => (hoperand _).next fun left => ?_
  exact .remaining fun k m hle => runs_operations hoperand hstart hle left

theorem runs_nonAssociative : RunsTo F n (nonAssociative operator operand) (nonAssociative operator operand')
    (Expression.moved F.shift) := by
  refine .mark fun start hstart => (hoperand _).next fun left => .kind fun k => ?_
  cases operator k with
  | none => exact .pure rfl
  | some op =>
    refine .advance ((hoperand _).next fun right => .kind fun k => ?_)
    cases (operator k).isSome with
    | true => exact .fail_bind
    | false => exact .extentFrom hstart fun x => .pure rfl

end

/-- A longer text bounds the nesting less. -/
theorem runs_expressionWithin {k m : Nat} (hle : k ≤ m) : RunsTo F n (expressionWithin k) (expressionWithin m)
    (Expression.moved F.shift) := by
  induction k generalizing m n with
  | zero => exact .fail
  | succ k ih =>
    obtain ⟨m, rfl⟩ := Nat.exists_eq_add_of_lt (show 0 < m by omega)
    have hinner : ∀ n, RunsTo F n (expressionWithin k) (expressionWithin (0 + m)) (Expression.moved F.shift) :=
      fun n => ih (by omega)
    have hsum : ∀ n, RunsTo F n (sum (expressionWithin k)) (sum (expressionWithin (0 + m)))
        (Expression.moved F.shift) :=
      fun n => runs_leftAssociative fun n => runs_leftAssociative fun n => runs_unary hinner
    have hcomparison : ∀ n, RunsTo F n (comparison (expressionWithin k)) (comparison (expressionWithin (0 + m)))
        (Expression.moved F.shift) :=
      fun n => runs_nonAssociative hsum
    exact runs_leftAssociative fun n => runs_leftAssociative hcomparison

theorem runs_expression : RunsTo F n expression expression (Expression.moved F.shift) :=
  .remaining fun _ _ hle => runs_expressionWithin (Nat.succ_le_succ hle)

theorem runs_operand : RunsTo F n operand operand (Expression.moved F.shift) :=
  runs_selection fun _ => runs_expression

/-! ## Assignments and invocations -/

/-- Two forms that build the same statement, the second one at a moved place. -/
def FormMoved (d : Shift) (build build' : Form) : Prop := ∀ x, build' (x.moved d) = (build x).moved d

/-- The parser reads the same form in both texts, with the semicolon at its end. -/
abbrev RunsForm (F : Frame) (n : Nat) (p : Parser Form) : Prop := Runs F n true p p (FormMoved F.shift)

theorem runs_requireAssignable (target : Expression) :
    Runs F n false (requireAssignable target) (requireAssignable (target.moved F.shift)) Eq := by
  unfold requireAssignable
  rw [Expression.isAssignable_moved]
  by_cases hassignable : target.isAssignable = true
  · rw [if_pos hassignable, if_pos hassignable]
    exact .pure rfl
  · rw [if_neg hassignable]
    intro s _ hs a s' h
    cases h

theorem runs_expressionStatement : RunsForm F n expressionStatement := by
  refine runs_operand.next fun e => .kind fun k => ?_
  rw [Expression.isInvocation_moved]
  split
  · refine (runs_requireAssignable e).same fun _ => .advance (runs_expression.next fun value => ?_)
    exact .semicolon fun x => rfl
  · split
    · exact .semicolon fun x => rfl
    · exact .fail

theorem runs_assignmentTarget : RunsTo F n assignmentTarget assignmentTarget (Expression.moved F.shift) := by
  refine runs_operand.next fun target => (runs_requireAssignable target).same fun _ => ?_
  exact (runs_symbol _ _).same fun _ => .pure rfl

theorem runs_assignment : RunsForm F n assignment :=
  runs_assignmentTarget.next fun _ => runs_expression.next fun _ => .semicolon fun _ => rfl

section

variable {callee : String → Callee} (hcallee : ∀ owner, (callee owner).moved F.shift = callee owner)

include hcallee

theorem runs_markedInvocation : RunsTo F n (markedInvocation callee) (markedInvocation callee)
    (Expression.moved F.shift) := by
  refine .mark fun start hstart => .kind fun k => ?_
  split
  · refine .advance ((runs_name _).same fun operation => ?_)
    refine (runs_arguments fun _ => runs_expression).next fun args => .extentFrom hstart fun x => .pure ?_
    rw [Expression.moved, hcallee]
  · exact .fail

theorem runs_markedStatement : RunsForm F n (markedStatement callee) := by
  refine .kind fun k => ?_
  split
  · exact (runs_markedInvocation hcallee).next fun _ => .semicolon fun _ => rfl
  · refine runs_assignmentTarget.next fun target => ?_
    exact (runs_markedInvocation hcallee).next fun _ => .semicolon fun _ => rfl

end

/-! ## Relationships and selections -/

/-- Behind a semicolon, nothing is looked at that matters. -/
theorem runs_relationship : Runs F n false relationship relationship Eq := by
  refine (runs_name _).same fun id => ?_
  intro s hn
  refine .kind ?_
  by_cases hk : s.current.kind = .symbol .semicolon
  · rw [hk]
    exact .kindAt_const (fun _ => rfl) (.pure rfl)
  · refine .kindAt_one hk ?_
    split
    · exact .advance (.advance (.pure rfl))
    · exact .pure rfl

theorem runs_someName (expected : String) :
    Runs F n false (some <$> name expected) (some <$> name expected) Eq :=
  (runs_name expected).map fun _ _ h => congrArg some h

theorem runs_across : Runs F n true across across Eq := by
  refine (runs_keyword _ _).same fun _ => runs_relationship.same fun rel => (runs_eat _).same fun found => ?_
  cases found with
  | true => exact (runs_someName _).same fun link => .semicolon rfl
  | false => exact .semicolon rfl

theorem runs_relate : RunsForm F n relate := by
  refine (runs_name _).same fun source => (runs_keyword _ _).same fun _ => (runs_name _).same fun target => ?_
  refine runs_across.closed_pure ?_
  rintro ⟨rel, link⟩ _ rfl
  exact ⟨_, _, rfl, rfl, fun x => rfl⟩

theorem runs_unrelate : RunsForm F n unrelate := by
  refine (runs_name _).same fun source => (runs_keyword _ _).same fun _ => (runs_name _).same fun target => ?_
  refine runs_across.closed_pure ?_
  rintro ⟨rel, link⟩ _ rfl
  exact ⟨_, _, rfl, rfl, fun x => rfl⟩

theorem runs_condition : RunsTo F n condition condition (Option.map (Expression.moved F.shift)) := by
  refine (runs_eat _).same fun found => ?_
  cases found with
  | true => exact runs_expression.map fun e e' h => congrArg some h
  | false => exact .pure rfl

theorem runs_navigationStart : Runs F n false navigationStart navigationStart Eq := by
  refine (runs_eat _).same fun found => ?_
  cases found with
  | true => exact .pure rfl
  | false =>
    refine (runs_eat _).same fun found => ?_
    cases found with
    | true => exact .pure rfl
    | false => exact (runs_name _).same fun _ => .pure rfl

theorem runs_navigationStep {start : Mark} (hstart : start.In F.inside) :
    RunsTo F n (navigationStep start) (navigationStep (start.moved F.shift)) (NavigationStep.moved F.shift) := by
  refine (runs_name _).same fun className => (runs_symbol _ _).same fun _ => ?_
  refine runs_relationship.same fun rel => (runs_symbol _ _).same fun _ => ?_
  exact .extentFrom hstart fun x => .pure rfl

theorem runs_navigationSteps {m : Nat} (hle : n ≤ m) : RunsTo F n (navigationSteps n) (navigationSteps m)
    (List.map (NavigationStep.moved F.shift)) := by
  induction n generalizing m with
  | zero => exact .pure_of_zero rfl
  | succ n ih =>
    obtain ⟨m, rfl⟩ := Nat.exists_eq_add_of_lt (show 0 < m by omega)
    refine .mark fun start hstart => .eat ?_ (.pure rfl)
    exact (runs_navigationStep hstart).next fun step => (ih (by omega)).next fun rest => .pure rfl

theorem runs_navigationChain : RunsTo F n navigationChain navigationChain
    (List.map (NavigationStep.moved F.shift)) := by
  refine .mark fun start hstart => (runs_symbol _ _).same fun _ => (runs_navigationStep hstart).next fun step => ?_
  exact .remaining fun k m hle => (runs_navigationSteps hle).next fun rest => .pure rfl

theorem runs_cardinality : Runs F n false cardinality cardinality Eq := by
  refine (runs_eat _).same fun found => ?_
  cases found with
  | true => exact .pure rfl
  | false =>
    refine (runs_eat _).same fun found => ?_
    cases found with
    | true => exact .pure rfl
    | false =>
      refine (runs_eat _).same fun found => ?_
      cases found with
      | true => exact .pure rfl
      | false => exact .fail

/-- A selection whose cardinality is reported as wrong at the token `first`. -/
def selectAt (first : Token) : Parser Form := do
  let card ← cardinality
  let result ← name "variable name"
  if ← eatKeyword .«from» then
    if card = .one then failAt first "'any' or 'many'"
    expectKeyword .instances "'instances'"
    expectKeyword .of "'of'"
    let className ← name "class name"
    let filter ← condition
    semicolon
    return (.selectFrom · card result className filter)
  else
    expectKeyword .related "'from' or 'related'"
    expectKeyword .«by» "'by'"
    let start ← navigationStart
    let chain ← navigationChain
    let filter ← condition
    semicolon
    return (.selectRelated · card result start chain filter)

theorem select_eq : select = (do selectAt (← MonadState.get).current) := rfl

theorem runs_selectAt (first first' : Token) :
    Runs F n true (selectAt first) (selectAt first') (FormMoved F.shift) := by
  refine runs_cardinality.same fun card => (runs_name _).same fun result => (runs_eat _).same fun found => ?_
  cases found with
  | true =>
    by_cases hone : card = .one
    · simp only [hone, if_true]
      exact .failAt_bind
    · simp only [hone, if_false]
      refine (runs_keyword _ _).same fun _ => (runs_keyword _ _).same fun _ => (runs_name _).same fun className => ?_
      exact runs_condition.next fun filter => .semicolon fun x => rfl
  | false =>
    refine (runs_keyword _ _).same fun _ => (runs_keyword _ _).same fun _ => ?_
    refine runs_navigationStart.same fun start => runs_navigationChain.next fun chain => ?_
    exact runs_condition.next fun filter => .semicolon fun x => rfl

theorem runs_select : RunsForm F n select := by
  rw [select_eq]
  exact fun s hn => .current selectAt selectAt (runs_selectAt _ _ s hn)

/-! ## Instances and events -/

/-- A name of one instance is looked for up to the semicolon, and not behind it. -/
theorem runs_createInstance : RunsForm F n createInstance := by
  refine (runs_keyword _ _).same fun _ => ?_
  have hrest : ∀ {n : Nat} (result : Option String), RunsForm F n (do
      expectKeyword .of "'of'"
      let className ← name "class name"
      semicolon
      return (Statement.create · result className)) := by
    intro n result
    refine (runs_keyword _ _).same fun _ => (runs_name _).same fun className => ?_
    exact .semicolon fun x => rfl
  have hbound : ∀ {n : Nat}, RunsForm F n (do
      let result ← some <$> name "variable name"
      expectKeyword .of "'of'"
      let className ← name "class name"
      semicolon
      return (Statement.create · result className)) :=
    (runs_someName _).same fun result => hrest result
  -- each look ahead matters only if the token before it is the one that is wanted, which is no semicolon
  intro s hn
  refine .kind ?_
  by_cases hof : isKeyword .of s.current.kind = true
  · have hk := isKeyword_iff.mp hof
    rw [hof]
    refine .kindAt_one (by rw [hk]; nofun) ?_
    by_cases hname : isName (s.kindAt 1) = true
    · rw [hname]
      refine .kindAt (fun i hi => ?_) ?_
      · rcases (show i = 0 ∨ i = 1 by omega) with rfl | rfl
        · rw [s.kindAt_zero, hk]
          nofun
        · intro hsemicolon
          rw [hsemicolon] at hname
          cases hname
      · dsimp only
        split
        · exact hrest none s hn
        · exact hbound s hn
    · rw [Bool.not_eq_true] at hname
      rw [hname]
      exact .kindAt_const (fun _ => rfl) (hbound s hn)
  · rw [Bool.not_eq_true] at hof
    simp only [hof, Bool.false_and]
    refine .kindAt_const (fun _ => rfl) ?_
    exact .kindAt_const (fun _ => rfl) (hbound s hn)

theorem runs_delete : RunsForm F n delete := by
  refine (runs_keyword _ _).same fun _ => (runs_keyword _ _).same fun _ => (runs_name _).same fun instanceName => ?_
  exact .semicolon fun x => rfl

theorem runs_eventMeaning : Runs F n false eventMeaning eventMeaning Eq := by
  refine (runs_eat _).same fun found => ?_
  cases found with
  | true =>
    refine .kind fun k => ?_
    split
    · exact .advance (.pure rfl)
    · exact (runs_name _).same fun _ => .pure rfl
  | false => exact .pure rfl

theorem runs_eventSpec : RunsTo F n eventSpec eventSpec (EventSpec.moved F.shift) := by
  refine (runs_name _).same fun label => runs_eventMeaning.same fun meaning => .kind fun k => ?_
  split
  · exact (runs_arguments fun _ => runs_expression).next fun args => .pure rfl
  · exact .pure rfl

/-- A class can be named only by a name, which is no semicolon. -/
theorem runs_eventTarget : RunsTo F n eventTarget eventTarget (EventTarget.moved F.shift) := by
  intro s hn
  refine .kind ?_
  by_cases hname : isName s.current.kind = true
  · rw [hname]
    refine .kindAt_one (fun hk => by rw [hk] at hname; cases hname) ?_
    split
    · exact (runs_name _ s hn).bind fun className _ s₁ h _ => .advance (.pure (by rw [← h]; rfl))
    · exact (runs_name _ s hn).bind fun className _ s₁ h _ => .advance (.pure (by rw [← h]; rfl))
    · exact (runs_expression s hn).bind fun e _ s₁ h _ => .pure (by rw [h]; rfl)
  · rw [Bool.not_eq_true] at hname
    rw [hname]
    refine .kindAt_const (fun _ => rfl) ?_
    exact (runs_expression s hn).bind fun e _ s₁ h _ => .pure (by rw [h]; rfl)

theorem runs_addressedEvent : Runs F n true addressedEvent addressedEvent
    fun r r' => r' = (r.1.moved F.shift, r.2.moved F.shift) := by
  refine runs_eventSpec.next fun event => (runs_keyword _ _).same fun _ => runs_eventTarget.next fun target => ?_
  exact .semicolon rfl

theorem runs_createEvent : RunsForm F n createEvent := by
  refine (runs_keyword _ _).same fun _ => (runs_name _).same fun result => (runs_keyword _ _).same fun _ => ?_
  refine runs_addressedEvent.closed_pure ?_
  rintro ⟨event, target⟩ _ rfl
  exact ⟨_, _, rfl, rfl, fun x => rfl⟩

theorem runs_create : RunsForm F n create := by
  refine (runs_eat _).same fun found => ?_
  cases found with
  | true => exact runs_createInstance
  | false => exact (runs_keyword _ _).same fun _ => runs_createEvent

theorem runs_generate : RunsForm F n generate := by
  have haddressed : ∀ build : EventSpec × EventTarget → Parser Form,
      (∀ event target, build (event, target) = Pure.pure (Statement.generate · event target)) →
      RunsForm F n (addressedEvent >>= build) := by
    intro build hbuild
    refine runs_addressedEvent.closed_pure ?_
    rintro ⟨event, target⟩ _ rfl
    exact ⟨_, _, hbuild _ _, hbuild _ _, fun x => rfl⟩
  have hcreated : ∀ {n : Nat}, RunsForm F n (do
      let event ← name "event variable"
      semicolon
      return (Statement.generateCreated · event)) :=
    (runs_name _).same fun event => .semicolon fun x => rfl
  intro s hn
  refine .kind ?_
  by_cases hname : isName s.current.kind = true
  · rw [hname]
    refine .kindAt_one (fun hk => by rw [hk] at hname; cases hname) ?_
    split
    · exact hcreated s hn
    · exact haddressed _ (fun _ _ => rfl) s hn
  · rw [Bool.not_eq_true] at hname
    rw [hname]
    exact .kindAt_const (fun _ => rfl) (haddressed _ (fun _ _ => rfl) s hn)

theorem runs_returnValue : RunsForm F n returnValue := by
  refine fun s hn => .eatSemicolon (fun x => rfl) rfl rfl ?_
  have hvalue : RunsForm F n (do
      let value ← expression
      semicolon
      return (Statement.returnValue · (some value))) :=
    runs_expression.next fun value => .semicolon fun x => rfl
  exact hvalue s hn

/-! ## Blocks -/

section

variable {inner inner' : Parser Statement}
  (hinner : ∀ n, Runs F n true inner inner' fun st st' => st' = st.moved F.shift)

include hinner

theorem runs_statementsUpTo (terminators : List Keyword) {m : Nat} (hle : n ≤ m) :
    RunsTo F n (statementsUpTo inner terminators n) (statementsUpTo inner' terminators m)
      (Statement.allMoved F.shift) := by
  induction n generalizing m with
  | zero => exact .pure_of_zero rfl
  | succ n ih =>
    obtain ⟨m, rfl⟩ := Nat.exists_eq_add_of_lt (show 0 < m by omega)
    refine .kind fun k => ?_
    split
    · exact .pure rfl
    · -- a statement takes its semicolon, so that one pass less is enough for the rest
      refine .eat (ih (by omega)) ((hinner (n + 1)).bind_closed ?_)
      rintro st _ rfl
      exact (ih (by omega)).next fun rest => .pure rfl

theorem runs_block (terminators : List Keyword) : RunsTo F n (block inner terminators) (block inner' terminators)
    (Block.moved F.shift) := by
  refine .mark fun start hstart => .remaining fun k m hle => ?_
  exact (runs_statementsUpTo hinner terminators hle).next fun sts => .extentFrom hstart fun x => .pure rfl

theorem runs_elifs {m : Nat} (hle : n ≤ m) : RunsTo F n (elifs inner n) (elifs inner' m)
    (Elif.allMoved F.shift) := by
  induction n generalizing m with
  | zero => exact .pure_of_zero rfl
  | succ n ih =>
    obtain ⟨m, rfl⟩ := Nat.exists_eq_add_of_lt (show 0 < m by omega)
    refine .mark fun start hstart => .eat ?_ (.pure rfl)
    refine runs_expression.next fun test => (runs_block hinner branchEnds).next fun b => ?_
    exact .extentFrom hstart fun x => (ih (by omega)).next fun rest => .pure rfl

theorem runs_branch : Runs F n true (branch inner) (branch inner') (FormMoved F.shift) := by
  refine runs_expression.next fun test => (runs_block hinner branchEnds).next fun b => ?_
  refine .remaining fun k m hle => (runs_elifs hinner hle).next fun clauses => (runs_eat _).same fun found => ?_
  cases found with
  | true =>
    have hotherwise : RunsTo F k (some <$> block inner [.endIf]) (some <$> block inner' [.endIf])
        (Option.map (Block.moved F.shift)) :=
      (runs_block hinner [.endIf]).map fun b b' h => congrArg some h
    refine hotherwise.next fun otherwise => (runs_keyword _ _).same fun _ => .semicolon fun x => ?_
    cases otherwise with
    | none | some => rfl
  | false => exact (runs_keyword _ _).same fun _ => .semicolon fun x => rfl

theorem runs_forEach : Runs F n true (forEach inner) (forEach inner') (FormMoved F.shift) := by
  refine (runs_keyword _ _).same fun _ => (runs_name _).same fun item => (runs_keyword _ _).same fun _ => ?_
  refine (runs_name _).same fun set => (runs_block hinner [.endFor]).next fun b => ?_
  exact (runs_keyword _ _).same fun _ => .semicolon fun x => rfl

theorem runs_whileLoop : Runs F n true (whileLoop inner) (whileLoop inner') (FormMoved F.shift) := by
  refine runs_expression.next fun test => (runs_block hinner [.endWhile]).next fun b => ?_
  exact (runs_keyword _ _).same fun _ => .semicolon fun x => rfl

/-! ## Statements -/

/-- A keyword that begins a statement does so with both parsers for the statements inside. -/
theorem runs_keywordForm (k : Keyword) : (keywordForm inner k = none ∧ keywordForm inner' k = none) ∨
    ∃ p p', keywordForm inner k = some p ∧ keywordForm inner' k = some p' ∧
      ∀ n, Runs F n true p p' (FormMoved F.shift) := by
  unfold keywordForm
  split
  case h_18 => exact .inl ⟨rfl, rfl⟩
  all_goals refine .inr ⟨_, _, rfl, rfl, fun n => ?_⟩
  case h_1 => exact .semicolon fun x => rfl
  case h_2 => exact .semicolon fun x => rfl
  case h_3 => exact (runs_keyword _ _).same fun _ => .semicolon fun x => rfl
  case h_4 => exact runs_returnValue
  case h_5 => exact runs_assignment
  case h_6 => exact runs_markedStatement fun _ => rfl
  case h_7 => exact runs_markedStatement fun _ => rfl
  case h_8 => exact runs_markedStatement fun _ => rfl
  case h_9 => exact runs_create
  case h_10 => exact runs_delete
  case h_11 => exact runs_relate
  case h_12 => exact runs_unrelate
  case h_13 => exact runs_select
  case h_14 => exact runs_forEach hinner
  case h_15 => exact runs_whileLoop hinner
  case h_16 => exact runs_branch hinner
  case h_17 => exact runs_generate

theorem runs_form : Runs F n true (form inner) (form inner') (FormMoved F.shift) := by
  intro s hn
  refine .kind ?_
  split
  · rename_i k hk
    refine .kindAt_one (by rw [hk]; nofun) ?_
    split
    · exact runs_expressionStatement s hn
    · rcases runs_keywordForm hinner k with ⟨hnone, hnone'⟩ | ⟨p, p', hp, hp', hrun⟩
      · rw [hnone, hnone']
        exact runs_expressionStatement s hn
      · rw [hp, hp']
        exact Runs.advance (hrun _) s hn
  · exact runs_expressionStatement s hn

theorem runs_statement : Runs F n true (statement inner) (statement inner') fun st st' => st' = st.moved F.shift := by
  refine .mark fun start hstart => (runs_form hinner).closed_extent hstart fun build build' h x => ?_
  exact h x

end

theorem runs_statementWithin {k m : Nat} (hle : k ≤ m) : Runs F n true (statementWithin k) (statementWithin m)
    fun st st' => st' = st.moved F.shift := by
  induction k generalizing m n with
  | zero => exact .fail
  | succ k ih =>
    obtain ⟨m, rfl⟩ := Nat.exists_eq_add_of_lt (show 0 < m by omega)
    exact runs_statement fun n => ih (by omega)

end Parser

end ObjectAction
