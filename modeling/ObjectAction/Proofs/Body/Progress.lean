/-
Progress of the parser, and its end. Statements move on as expressions do, by one lemma for every parser again. Then the
loops end: more passes than tokens ahead do the same whatever stands behind them, which is thus never reached, and they
do what the loop does with its own bound. Levels of nesting are treated alike.

The main statement is about a list of tokens that ends in an end of input, and about places in it. No other end of input
is excluded: the parsers stop in front of the first one, and that they never take it is not for want of tokens behind.
-/
import ObjectAction.Proofs.Body.Advance
import ObjectAction.Proofs.Body.Concatenation

namespace ObjectAction

open Text (Mark)

namespace Parser

variable {α β : Type} {s : Stream} {k : Nat} {strict : Bool}

/-! ## Assignments and invocations -/

theorem moves_requireAssignable (target : Expression) :
    MovesOn k false (requireAssignable target) := by
  refine fun s _ => ⟨rfl, fun a s' h => ?_⟩
  obtain ⟨rfl, -⟩ := peeks_requireAssignable s target a s' h
  exact ⟨[], .refl s', nofun⟩

theorem moves_expressionStatement : MovesOn k true expressionStatement := by
  refine moves_operand.step fun e j hj => .kind fun s kd hs hk => ?_
  split
  · rename_i hequal
    -- between the sign that was seen and its taking, nothing is taken
    have hne : kd ≠ .endOfInput := isSymbol_iff.mp hequal ▸ nofun
    refine .peek (peeks_requireAssignable s e) fun _ _ => .advance hs hk hne fun i hi => ?_
    exact moves_expression.next fun value => moves_semicolon.next fun _ => .pure
  · split
    · exact moves_semicolon.next (fun _ => .pure) s hs
    · exact Moves.fail s hs

theorem moves_assignmentTarget : MovesOn k true assignmentTarget := by
  refine moves_operand.step fun target j hj => (moves_requireAssignable target).next fun _ => ?_
  exact (moves_symbol _ _).next fun _ => .pure

theorem moves_assignment : MovesOn k true assignment := by
  refine moves_assignmentTarget.step fun target j hj => moves_expression.next fun value => ?_
  exact moves_semicolon.next fun _ => .pure

theorem moves_markedInvocation (callee : String → Callee) :
    MovesOn k true (markedInvocation callee) := by
  refine .mark fun start => .kind fun s kd hs hk => ?_
  split
  · refine .advance hs hk nofun fun j hj => (moves_name _).next fun operation => ?_
    exact (moves_arguments fun _ _ => moves_expression).next fun args => moves_extent
  · exact Moves.fail s hs

theorem moves_markedStatement (callee : String → Callee) :
    MovesOn k true (markedStatement callee) := by
  refine .kind fun s kd hs hk => ?_
  split
  · refine (moves_markedInvocation callee).step (fun invocation j hj => ?_) s hs
    exact moves_semicolon.next fun _ => .pure
  · refine moves_assignmentTarget.step (fun target j hj => ?_) s hs
    refine (moves_markedInvocation callee).next fun invocation => ?_
    exact moves_semicolon.next fun _ => .pure

/-! ## Relationships and selections -/

/-- A phrase is taken only where it was seen behind the point. -/
theorem moves_relationship : MovesOn k true relationship := by
  refine (moves_name _).step fun id j hj => .kind fun s kd hs hk => .kindAt ?_
  split
  · rename_i phrase hphrase
    rw [← Stream.kind_tail] at hphrase
    exact .take hs hk nofun fun i hi hs' => .advance hs' hphrase nofun fun _ _ => .pure
  · exact Moves.pure s hs

theorem moves_someName (expected : String) : MovesOn k true (some <$> name expected) :=
  (moves_name expected).map

theorem moves_across : MovesOn k true across := by
  refine (moves_keyword _ _).step fun _ j hj => moves_relationship.next fun rel => .eat rfl (fun i hi => ?_) ?_
  · exact (moves_someName _).next fun link => moves_semicolon.next fun _ => .pure
  · exact moves_semicolon.next fun _ => .pure

theorem moves_relate : MovesOn k true relate := by
  refine (moves_name _).step fun source j hj => (moves_keyword _ _).next fun _ => (moves_name _).next fun target => ?_
  exact moves_across.next fun _ => .pure

theorem moves_unrelate : MovesOn k true unrelate := by
  refine (moves_name _).step fun source j hj => (moves_keyword _ _).next fun _ => (moves_name _).next fun target => ?_
  exact moves_across.next fun _ => .pure

theorem moves_condition : MovesOn k false condition :=
  .eat rfl (fun _ _ => moves_expression.map.weaken) .pure

theorem moves_navigationStart : MovesOn k true navigationStart := by
  refine .eat rfl (fun _ _ => .pure) (.eat rfl (fun _ _ => .pure) ?_)
  exact (moves_name _).step fun _ _ _ => .pure

theorem moves_navigationStep (start : Mark) : MovesOn k true (navigationStep start) := by
  refine (moves_name _).step fun className j hj => (moves_symbol _ _).next fun _ => ?_
  exact moves_relationship.next fun rel => (moves_symbol _ _).next fun _ => moves_extent

/-- One step, if an arrow is ahead; `rest` reads those behind it. -/
def navigationPass (rest : Parser (List NavigationStep)) : Parser (List NavigationStep) := do
  let start ← mark
  if ← eatSymbol .arrow then
    let step ← navigationStep start
    return step :: (← rest)
  else return []

theorem navigationSteps_eq (n : Nat) : navigationSteps n = navigationPass^[n] (Pure.pure []) :=
  eq_iterate navigationSteps (fun _ => rfl) n

theorem moves_navigationPass {rest rest' : Parser (List NavigationStep)} (hrest : ∀ j < k, Moves j false rest rest') :
    Moves k false (navigationPass rest) (navigationPass rest') := by
  refine .mark fun start => .eat rfl (fun j hj => ?_) .pure
  exact (moves_navigationStep start).next fun step => (hrest j hj).next fun chain => .pure

theorem moves_navigationSteps (n : Nat) : MovesOn k false (navigationSteps n) := by
  rw [navigationSteps_eq]
  refine iterate_related (R := fun k => Moves k false) (fun _ _ _ _ hrest => ?_) (fun _ _ => .pure) n k le_rfl
  exact moves_navigationPass hrest

theorem moves_navigationChain : MovesOn k true navigationChain := by
  refine .mark fun start => (moves_symbol _ _).step fun _ j hj => (moves_navigationStep start).next fun step => ?_
  exact .remaining fun i hi => (moves_navigationSteps i).next fun chain => .pure

theorem moves_cardinality : MovesOn k true cardinality :=
  .eat rfl (fun _ _ => .pure) (.eat rfl (fun _ _ => .pure) (.eat rfl (fun _ _ => .pure) .fail))

theorem moves_selectAt (first : Token) : MovesOn k true (selectAt first) := by
  refine moves_cardinality.step fun card j hj => (moves_name _).next fun result => .eat rfl (fun i hi => ?_) ?_
  · have hfail : MovesOn i true (failAt first "'any' or 'many'" : Parser PUnit) := .failAt
    have hfrom : MovesOn i false (do
        expectKeyword .instances "'instances'"
        expectKeyword .of "'of'"
        let className ← name "class name"
        let filter ← condition
        semicolon
        return (Statement.selectFrom · card result className filter)) := by
      refine (moves_keyword _ _).next fun _ => (moves_keyword _ _).next fun _ => (moves_name _).next fun className => ?_
      exact moves_condition.next fun filter => moves_semicolon.next fun _ => .pure
    by_cases hone : card = .one
    · subst hone
      simp only [if_true]
      exact hfail.next fun _ => hfrom
    · simp only [hone, if_true, if_false]
      exact hfrom
  · refine (moves_keyword _ _).next fun _ => (moves_keyword _ _).next fun _ => ?_
    refine moves_navigationStart.next fun start => moves_navigationChain.next fun chain => ?_
    exact moves_condition.next fun filter => moves_semicolon.next fun _ => .pure

theorem moves_select : MovesOn k true select := by
  rw [select_eq]
  exact .get fun s hs => moves_selectAt s.current s hs

/-! ## Instances and events -/

theorem moves_createInstance : MovesOn k true createInstance := by
  refine (moves_keyword _ _).step fun _ j hj => ?_
  refine .kind fun s kd hs hk => Moves.kindAt (fun next => .kindAt fun third => ?_) s hs
  have hrest : ∀ result : Option String, MovesOn j false (do
      expectKeyword .of "'of'"
      let className ← name "class name"
      semicolon
      return (Statement.create · result className)) := fun result =>
    (moves_keyword _ _).next fun _ => (moves_name _).next fun className => moves_semicolon.next fun _ => .pure
  dsimp only
  split
  · exact hrest none
  · exact (moves_someName _).next hrest

theorem moves_delete : MovesOn k true delete := by
  refine (moves_keyword _ _).step fun _ j hj => (moves_keyword _ _).next fun _ => ?_
  exact (moves_name _).next fun instanceName => moves_semicolon.next fun _ => .pure

theorem moves_eventMeaning : MovesOn k false eventMeaning := by
  refine .eat rfl (fun j hj => .kind fun s kd hs hk => ?_) .pure
  split
  · exact .advance hs hk nofun fun _ _ => .pure
  · exact (moves_name _).next (fun _ => .pure) s hs

theorem moves_eventSpec : MovesOn k true eventSpec := by
  refine (moves_name _).step fun label j hj => moves_eventMeaning.next fun meaning => .kind fun s kd hs hk => ?_
  split
  · exact (moves_arguments fun _ _ => moves_expression).next (fun args => .pure) s hs
  · exact Moves.pure s hs

/-- A keyword behind the name of a class is taken only where it was seen. -/
theorem moves_eventTarget : MovesOn k true eventTarget := by
  refine .kind fun s kd hs hk => .kindAt ?_
  subst hk
  split
  · rename_i hname hclass
    rw [← Stream.kind_tail] at hclass
    exact .name hs hname fun j hj hs' => .advance hs' hclass nofun fun _ _ => .pure
  · rename_i hname hcreator
    rw [← Stream.kind_tail] at hcreator
    exact .name hs hname fun j hj hs' => .advance hs' hcreator nofun fun _ _ => .pure
  · exact moves_expression.step (fun target j hj => .pure) s hs

theorem moves_addressedEvent : MovesOn k true addressedEvent := by
  refine moves_eventSpec.step fun event j hj => (moves_keyword _ _).next fun _ => ?_
  exact moves_eventTarget.next fun target => moves_semicolon.next fun _ => .pure

theorem moves_createEvent : MovesOn k true createEvent := by
  refine (moves_keyword _ _).step fun _ j hj => (moves_name _).next fun result => (moves_keyword _ _).next fun _ => ?_
  exact moves_addressedEvent.next fun _ => .pure

theorem moves_create : MovesOn k true create :=
  .eat rfl (fun _ _ => moves_createInstance.weaken) ((moves_keyword _ _).step fun _ _ _ => moves_createEvent.weaken)

theorem moves_generate : MovesOn k true generate := by
  refine .kind fun s kd hs hk => Moves.kindAt (fun next => ?_) s hs
  split
  · exact (moves_name _).step fun event j hj => moves_semicolon.next fun _ => .pure
  · exact moves_addressedEvent.step fun _ _ _ => .pure

theorem moves_returnValue : MovesOn k true returnValue := by
  refine .eat rfl (fun _ _ => .pure) ?_
  exact moves_expression.step fun value j hj => moves_semicolon.next fun _ => .pure

/-! ## Blocks -/

/-- One semicolon or statement of a block; `rest` reads what follows. -/
def statementPass (inner : Parser Statement) (terminators : List Keyword) (rest : Parser (List Statement)) :
    Parser (List Statement) := do
  if endsBlock terminators (← kind) then return []
  else if ← eatSymbol .semicolon then rest
  else
    let statement ← inner
    return statement :: (← rest)

theorem statementsUpTo_eq (inner : Parser Statement) (terminators : List Keyword) (n : Nat) :
    statementsUpTo inner terminators n = (statementPass inner terminators)^[n] (Pure.pure []) :=
  eq_iterate (statementsUpTo inner terminators) (fun _ => rfl) n

/-- One clause, if `elif` is ahead; `rest` reads those behind it. -/
def elifPass (inner : Parser Statement) (rest : Parser (List Elif)) : Parser (List Elif) := do
  let start ← mark
  if ← eatKeyword .elif then
    let test ← expression
    let body ← block inner branchEnds
    let clause := Elif.mk (← extentFrom start) test body
    return clause :: (← rest)
  else return []

theorem elifs_eq (inner : Parser Statement) (n : Nat) : elifs inner n = (elifPass inner)^[n] (Pure.pure []) :=
  eq_iterate (elifs inner) (fun _ => rfl) n

section

variable {inner inner' : Parser Statement} (hinner : Moves k true inner inner')

include hinner

theorem moves_statementPass (terminators : List Keyword) {rest rest' : Parser (List Statement)}
    (hrest : ∀ j < k, Moves j false rest rest') :
    Moves k false (statementPass inner terminators rest) (statementPass inner' terminators rest') := by
  refine .kind fun s kd hs hk => ?_
  split
  · exact Moves.pure s hs
  · -- a statement takes a token as a semicolon does, so that both leave less to the rest
    refine Moves.eat rfl hrest (hinner.step fun st j hj => ?_) s hs
    exact (hrest j hj).next fun sts => .pure

theorem moves_statementsUpTo (terminators : List Keyword) (n : Nat) :
    Moves k false (statementsUpTo inner terminators n) (statementsUpTo inner' terminators n) := by
  rw [statementsUpTo_eq, statementsUpTo_eq]
  refine iterate_related (R := fun k => Moves k false) (fun j hj rest rest' hrest => ?_) (fun _ _ => .pure) n k le_rfl
  exact moves_statementPass (hinner.mono hj) terminators hrest

theorem moves_block (terminators : List Keyword) :
    Moves k false (block inner terminators) (block inner' terminators) := by
  refine .mark fun start => .remaining fun j hj => ?_
  exact (moves_statementsUpTo (hinner.mono hj) terminators j).next fun sts => moves_extent

theorem moves_elifPass {rest rest' : Parser (List Elif)} (hrest : ∀ j < k, Moves j false rest rest') :
    Moves k false (elifPass inner rest) (elifPass inner' rest') := by
  refine .mark fun start => .eat rfl (fun j hj => moves_expression.next fun test => ?_) .pure
  refine (moves_block (hinner.mono hj.le) branchEnds).next fun b => .extentFrom fun x => ?_
  exact (hrest j hj).next fun clauses => .pure

theorem moves_elifs (n : Nat) : Moves k false (elifs inner n) (elifs inner' n) := by
  rw [elifs_eq, elifs_eq]
  refine iterate_related (R := fun k => Moves k false) (fun j hj rest rest' hrest => ?_) (fun _ _ => .pure) n k le_rfl
  exact moves_elifPass (hinner.mono hj) hrest

theorem moves_branch : Moves k true (branch inner) (branch inner') := by
  refine moves_expression.step fun test j hj => (moves_block (hinner.mono hj.le) branchEnds).next fun b => ?_
  refine .remaining fun i hi => (moves_elifs (hinner.mono (by omega)) i).next fun clauses => ?_
  have hend : ∀ {l : Nat} (otherwise : Option Block), MovesOn l false (do
      expectKeyword .endIf "'end if'"
      semicolon
      return (Statement.branch · test b clauses otherwise)) := fun otherwise =>
    (moves_keyword _ _).next fun _ => moves_semicolon.next fun _ => .pure
  refine .eat rfl (fun l hl => ?_) (hend none)
  exact (moves_block (hinner.mono (by omega)) [.endIf]).map.next hend

theorem moves_forEach : Moves k true (forEach inner) (forEach inner') := by
  refine (moves_keyword _ _).step fun _ j hj => (moves_name _).next fun item => (moves_keyword _ _).next fun _ => ?_
  refine (moves_name _).next fun set => (moves_block (hinner.mono hj.le) [.endFor]).next fun b => ?_
  exact (moves_keyword _ _).next fun _ => moves_semicolon.next fun _ => .pure

theorem moves_whileLoop : Moves k true (whileLoop inner) (whileLoop inner') := by
  refine moves_expression.step fun test j hj => (moves_block (hinner.mono hj.le) [.endWhile]).next fun b => ?_
  exact (moves_keyword _ _).next fun _ => moves_semicolon.next fun _ => .pure

/-! ## Statements -/

/-- A keyword that begins a statement does so with both parsers for the statements inside. -/
theorem moves_keywordForm (kw : Keyword) : (keywordForm inner kw = none ∧ keywordForm inner' kw = none) ∨
    ∃ p p', keywordForm inner kw = some p ∧ keywordForm inner' kw = some p' ∧ Moves k true p p' := by
  unfold keywordForm
  split
  case h_18 => exact .inl ⟨rfl, rfl⟩
  all_goals refine .inr ⟨_, _, rfl, rfl, ?_⟩
  case h_1 => exact moves_semicolon.step fun _ _ _ => .pure
  case h_2 => exact moves_semicolon.step fun _ _ _ => .pure
  case h_3 => exact (moves_keyword _ _).step fun _ j hj => moves_semicolon.next fun _ => .pure
  case h_4 => exact moves_returnValue
  case h_5 => exact moves_assignment
  case h_6 => exact moves_markedStatement _
  case h_7 => exact moves_markedStatement _
  case h_8 => exact moves_markedStatement _
  case h_9 => exact moves_create
  case h_10 => exact moves_delete
  case h_11 => exact moves_relate
  case h_12 => exact moves_unrelate
  case h_13 => exact moves_select
  case h_14 => exact moves_forEach hinner
  case h_15 => exact moves_whileLoop hinner
  case h_16 => exact moves_branch hinner
  case h_17 => exact moves_generate

end

section

variable {inner inner' : Parser Statement} (hinner : ∀ j < k, Moves j true inner inner')

include hinner

theorem moves_form : Moves k true (form inner) (form inner') := by
  refine .kind fun s kd hs hk => ?_
  split
  · rename_i kw
    refine .kindAt ?_
    split
    · exact moves_expressionStatement s hs
    · -- the statements inside begin behind the keyword, where `inner` may be used
      obtain ⟨j, hj, hs'⟩ := (Stream.passes_tail hs.final (by rw [hk]; nofun)).within_lt (List.cons_ne_nil _ _) hs
      rcases moves_keywordForm (hinner j hj) kw with ⟨hnone, hnone'⟩ | ⟨p, p', hp, hp', hmoves⟩
      · rw [hnone, hnone']
        exact moves_expressionStatement s hs
      · rw [hp, hp']
        exact .take hs hk nofun fun _ _ _ => hmoves.weaken _ hs'
  · exact moves_expressionStatement s hs

theorem moves_statement : Moves k true (statement inner) (statement inner') :=
  .mark fun _ => (moves_form hinner).step fun _ _ _ => moves_extent

end

theorem statementWithin_eq (n : Nat) : statementWithin n = statement^[n] (fail "statement") :=
  eq_iterate statementWithin (fun _ => rfl) n

theorem moves_statementWithin (n : Nat) : MovesOn k true (statementWithin n) := by
  rw [statementWithin_eq]
  exact iterate_related (R := fun k => Moves k true) (fun _ _ _ _ => moves_statement) (fun _ _ => .fail) n k le_rfl

theorem moves_body : MovesOn k false body := by
  refine .remaining fun j hj => ?_
  exact (moves_block (moves_statementWithin (j + 1)) []).next fun whole => .pure

/-! ## Loops -/

/-- Where the input ends, a parser stands for another that does the same there. -/
theorem Moves.of_end {p q : Parser α} (hq : MovesOn 0 strict q) (h : ∀ s, s.Within 0 → p s = q s) :
    Moves 0 strict p q :=
  fun s hs => ⟨h s hs, (hq s hs).moves⟩

theorem kind_bind_end (hs : s.Within 0) (f : Token.Kind → Parser β) : (kind >>= f) s = f .endOfInput s := by
  change f s.current.kind s = _
  rw [hs.current_end]

theorem mark_bind (s : Stream) (f : Mark → Parser β) : (mark >>= f) s = f s.current.start s := rfl

theorem argumentPass_end (inner : Parser Expression) (rest : Parser (List Argument)) :
    Moves 0 true (argumentPass inner rest) (fail "parameter name") := by
  refine .of_end .fail fun s hs => ?_
  have hname : ¬ isName s.current.kind = true := by
    rw [hs.current_end]
    nofun
  change (name "parameter name" s >>= fun x => _) = _
  rw [name_eq, if_neg hname]
  rfl

theorem selectionPass_end (inner : Parser Expression) (start : Mark) (rest : Expression → Parser Expression)
    (e : Expression) : Moves 0 false (selectionPass inner start rest e) (Pure.pure e) :=
  .of_end .pure fun _ hs => (eat_bind_end rfl hs _).trans (eat_bind_end rfl hs _)

theorem prefixPass_end {inner : Parser Expression} (hinner : MovesOn 0 true (selection inner))
    (rest : Parser Expression) : Moves 0 true (prefixPass inner rest) (selection inner) := by
  refine .of_end hinner fun s hs => ?_
  have hnone : prefixOperator s = .ok (none, s) := kind_bind_end hs _
  exact (mark_bind s _).trans (bind_of_ok hnone)

theorem operationPass_end {operator : Token.Kind → Option BinaryOperator} (hoperator : operator .endOfInput = none)
    (operand : Parser Expression) (start : Mark) (rest : Expression → Parser Expression) (left : Expression) :
    Moves 0 false (operationPass operator operand start rest left) (Pure.pure left) := by
  refine .of_end .pure fun s hs => (kind_bind_end hs _).trans ?_
  rw [hoperator]

theorem navigationPass_end (rest : Parser (List NavigationStep)) :
    Moves 0 false (navigationPass rest) (Pure.pure []) :=
  .of_end .pure fun s hs => (mark_bind s _).trans (eat_bind_end rfl hs _)

theorem statementPass_end (inner : Parser Statement) (terminators : List Keyword) (rest : Parser (List Statement)) :
    Moves 0 false (statementPass inner terminators rest) (Pure.pure []) :=
  .of_end .pure fun _ hs => kind_bind_end hs _

theorem elifPass_end (inner : Parser Statement) (rest : Parser (List Elif)) :
    Moves 0 false (elifPass inner rest) (Pure.pure []) :=
  .of_end .pure fun s hs => (mark_bind s _).trans (eat_bind_end rfl hs _)

section

variable (hs : s.Within k) {n : Nat} (hn : k < n)

include hs hn

theorem argumentsUpTo_settled {inner : Parser Expression} (hinner : ∀ k, MovesOn k true inner)
    (rest : Parser (List Argument)) : (argumentPass inner)^[n] rest s = argumentsUpTo inner k s := by
  have hlevel : ∀ k rest rest', (∀ j < k, Moves j true rest rest') →
      Moves k true (argumentPass inner rest) (argumentPass inner rest') :=
    fun _ _ _ => moves_argumentPass fun j _ => hinner j
  rw [argumentsUpTo_eq]
  exact (iterate_exhausted hlevel (argumentPass_end inner) hn le_rfl rest s hs).same

theorem selections_settled {inner : Parser Expression} (hinner : ∀ k, MovesOn k true inner) (start : Mark)
    (rest : Expression → Parser Expression) (e : Expression) :
    (selectionPass inner start)^[n] rest e s = selections inner start k e s := by
  have hlevel : ∀ k rest rest', (∀ j < k, ∀ e, Moves j false (rest e) (rest' e)) →
      ∀ e, Moves k false (selectionPass inner start rest e) (selectionPass inner start rest' e) :=
    fun _ _ _ => moves_selectionPass (fun j _ => hinner j) start
  rw [selections_eq]
  exact (iterate_exhausted (R := fun k (r r' : Expression → Parser Expression) => ∀ e, Moves k false (r e) (r' e))
    hlevel (selectionPass_end inner start) hn le_rfl rest e s hs).same

theorem prefixed_settled {inner : Parser Expression} (hinner : ∀ k, MovesOn k true inner) (rest : Parser Expression) :
    (prefixPass inner)^[n] rest s = prefixed inner k s := by
  have hlevel : ∀ k rest rest', (∀ j < k, Moves j true rest rest') →
      Moves k true (prefixPass inner rest) (prefixPass inner rest') :=
    fun _ _ _ => moves_prefixPass fun j _ => hinner j
  have hselection : MovesOn 0 true (selection inner) := moves_selection fun j _ => hinner j
  rw [prefixed_eq]
  exact (iterate_exhausted hlevel (prefixPass_end hselection) hn le_rfl rest s hs).same

theorem operations_settled {operator : Token.Kind → Option BinaryOperator} (hoperator : operator .endOfInput = none)
    {operand : Parser Expression} (hoperand : ∀ k, MovesOn k true operand) (start : Mark)
    (rest : Expression → Parser Expression) (left : Expression) :
    (operationPass operator operand start)^[n] rest left s = operations operator operand start k left s := by
  have hlevel : ∀ k rest rest', (∀ j < k, ∀ e, Moves j false (rest e) (rest' e)) →
      ∀ e, Moves k false (operationPass operator operand start rest e) (operationPass operator operand start rest' e) :=
    fun _ _ _ => moves_operationPass hoperator (fun j _ => hoperand j) start
  rw [operations_eq]
  exact (iterate_exhausted (R := fun k (r r' : Expression → Parser Expression) => ∀ e, Moves k false (r e) (r' e))
    hlevel (operationPass_end hoperator operand start) hn le_rfl rest left s hs).same

theorem navigationSteps_settled (rest : Parser (List NavigationStep)) :
    navigationPass^[n] rest s = navigationSteps k s := by
  have hlevel : ∀ k rest rest', (∀ j < k, Moves j false rest rest') →
      Moves k false (navigationPass rest) (navigationPass rest') :=
    fun _ _ _ => moves_navigationPass
  rw [navigationSteps_eq]
  exact (iterate_exhausted hlevel navigationPass_end hn le_rfl rest s hs).same

/-- The statements may be read by two parsers that differ only in what they do not reach. -/
theorem statementsUpTo_settled {inner inner' : Parser Statement} (hinner : Moves k true inner inner')
    (terminators : List Keyword) (rest : Parser (List Statement)) :
    (statementPass inner terminators)^[n] rest s = statementsUpTo inner' terminators k s := by
  -- the two parsers are alike on at most `k` tokens only, which is all that the passes get to see
  have hlevel : ∀ i rest rest', (∀ j < i, j ≤ k → Moves j false rest rest') →
      i ≤ k → Moves i false (statementPass inner terminators rest) (statementPass inner' terminators rest') :=
    fun i _ _ hrest hi => moves_statementPass (hinner.mono hi) terminators fun j hj => hrest j hj (by omega)
  rw [statementsUpTo_eq]
  exact (iterate_exhausted (R := fun i r r' => i ≤ k → Moves i false r r') hlevel
    (fun rest _ => statementPass_end inner terminators rest) hn le_rfl rest le_rfl s hs).same

theorem elifs_settled {inner : Parser Statement} (hinner : ∀ k, MovesOn k true inner) (rest : Parser (List Elif)) :
    (elifPass inner)^[n] rest s = elifs inner k s := by
  have hlevel : ∀ k rest rest', (∀ j < k, Moves j false rest rest') →
      Moves k false (elifPass inner rest) (elifPass inner rest') :=
    fun k _ _ => moves_elifPass (hinner k)
  rw [elifs_eq]
  exact (iterate_exhausted hlevel (elifPass_end inner) hn le_rfl rest s hs).same

end

/-! ## Nesting -/

theorem moves_expression_settled {n m : Nat} (hn : k < n) (hm : k < m) (inner : Parser Expression) :
    Moves k true (disjunction^[n] inner) (expressionWithin m) := by
  rw [expressionWithin_eq]
  exact iterate_settled (R := fun k => Moves k true) (fun _ _ _ => moves_disjunction) hn hm inner (fail "expression")

theorem moves_statement_settled {n m : Nat} (hn : k < n) (hm : k < m) (inner : Parser Statement) :
    Moves k true (statement^[n] inner) (statementWithin m) := by
  rw [statementWithin_eq]
  exact iterate_settled (R := fun k => Moves k true) (fun _ _ _ => moves_statement) hn hm inner (fail "statement")

/-- A body with the given statements. -/
def bodyOf (statements : Parser (List Statement)) : Parser Body := do
  let start ← mark
  let sts ← statements
  let extent ← extentFrom start
  return ⟨extent, .mk extent sts⟩

theorem body_eq_bodyOf (s : Stream) :
    body s = bodyOf (statementsUpTo (statementWithin (s.tokens.length + 1)) [] s.tokens.length) s :=
  body_eq s

theorem bodyOf_congr {p q : Parser (List Statement)} (h : p s = q s) : bodyOf p s = bodyOf q s := by
  change (p s >>= _) = (q s >>= _)
  rw [h]

/-- The parsers of an expression that is part of something else. -/
def Nested (inner : Parser Expression) : Prop := inner = expression ∨ ∃ depth, inner = expressionWithin depth

theorem Nested.moves {inner : Parser Expression} (h : Nested inner) (k : Nat) : MovesOn k true inner := by
  rcases h with rfl | ⟨depth, rfl⟩
  · exact moves_expression
  · exact moves_expressionWithin depth

/-- The levels of operators that are repeated, each with the parser of its operands. -/
def repeatedLevels (inner : Parser Expression) : List ((Token.Kind → Option BinaryOperator) × Parser Expression) :=
  [(productOperator, unary inner), (sumOperator, product inner), (conjunctionOperator, comparison inner),
    (disjunctionOperator, conjunction inner)]

theorem repeatedLevels_moves {inner : Parser Expression} (hinner : ∀ k, MovesOn k true inner)
    {level : (Token.Kind → Option BinaryOperator) × Parser Expression} (hlevel : level ∈ repeatedLevels inner) :
    level.1 .endOfInput = none ∧ ∀ k, MovesOn k true level.2 := by
  simp only [repeatedLevels, List.mem_cons, List.not_mem_nil, or_false] at hlevel
  rcases hlevel with rfl | rfl | rfl | rfl
  · exact ⟨rfl, fun _ => moves_unary fun j _ => hinner j⟩
  · exact ⟨rfl, fun _ => moves_product fun j _ => hinner j⟩
  · exact ⟨rfl, fun _ => moves_comparison fun j _ => hinner j⟩
  · exact ⟨rfl, fun _ => moves_conjunction fun j _ => hinner j⟩

/-- On the stream `s`, every loop ends within `n` passes, and every nesting within `n` levels. These are written out
here with anything behind the last of them. A run that got there would do what is put there, and so depend on it. -/
structure Halts (n : Nat) (s : Stream) : Prop where
  argumentLoop : ∀ inner, Nested inner → ∀ rest,
    (argumentPass inner)^[n] rest s = argumentsUpTo inner s.tokens.length s
  selectionLoop : ∀ inner, Nested inner → ∀ start rest e,
    (selectionPass inner start)^[n] rest e s = selections inner start s.tokens.length e s
  prefixLoop : ∀ inner, Nested inner → ∀ rest, (prefixPass inner)^[n] rest s = unary inner s
  operationLoop : ∀ inner, Nested inner → ∀ level ∈ repeatedLevels inner, ∀ start rest e,
    (operationPass level.1 level.2 start)^[n] rest e s = operations level.1 level.2 start s.tokens.length e s
  navigationLoop : ∀ rest, navigationPass^[n] rest s = navigationSteps s.tokens.length s
  statementLoop : ∀ depth terminators rest, (statementPass (statementWithin depth) terminators)^[n] rest s =
    statementsUpTo (statementWithin depth) terminators s.tokens.length s
  elifLoop : ∀ depth rest, (elifPass (statementWithin depth))^[n] rest s =
    elifs (statementWithin depth) s.tokens.length s
  expressionNesting : ∀ inner, disjunction^[n] inner s = expression s
  statementNesting : ∀ depth > s.tokens.length, ∀ inner, statement^[n] inner s = statementWithin depth s
  wholeBody : ∀ inner rest, bodyOf ((statementPass (statement^[n] inner) [])^[n] rest) s = body s

/-- One pass and one level more than tokens ahead are enough. -/
theorem halts_of_length_lt (hfinal : s.final.kind = .endOfInput) {n : Nat} (hn : s.tokens.length < n) : Halts n s := by
  have hs : s.Within s.tokens.length := ⟨hfinal, le_rfl⟩
  have hstatement := moves_statement_settled hn (Nat.lt_succ_self _)
  exact {
    argumentLoop := fun inner hinner => argumentsUpTo_settled hs hn hinner.moves
    selectionLoop := fun inner hinner => selections_settled hs hn hinner.moves
    prefixLoop := fun inner hinner => prefixed_settled hs hn hinner.moves
    operationLoop := fun inner hinner level hlevel => by
      obtain ⟨hoperator, hoperand⟩ := repeatedLevels_moves hinner.moves hlevel
      exact operations_settled hs hn hoperator hoperand
    navigationLoop := navigationSteps_settled hs hn
    statementLoop := fun depth => statementsUpTo_settled hs hn (moves_statementWithin depth)
    elifLoop := fun depth => elifs_settled hs hn fun _ => moves_statementWithin depth
    expressionNesting := fun inner => (moves_expression_settled hn (Nat.lt_succ_self _) inner s hs).same
    statementNesting := fun depth hdepth inner => (moves_statement_settled hn hdepth inner s hs).same
    -- the loop over the statements and their nesting are left open at the same time
    wholeBody := fun inner rest => by
      rw [body_eq_bodyOf]
      exact bodyOf_congr (statementsUpTo_settled hs hn (hstatement inner) [] rest) }

end Parser

/-! ## Places -/

/-- The place of a stream in a list of tokens: the first `i` of them were taken. -/
def Stream.At (tokens : List Token) (i : Nat) (s : Stream) : Prop := tokens.drop i = s.tokens ++ [s.final]

namespace Stream

variable {tokens : List Token} {i : Nat} {s : Stream}

theorem At.length (h : s.At tokens i) : tokens.length - i = s.tokens.length + 1 := by
  rw [← List.length_drop, h, List.length_append]
  rfl

theorem At.final_kind (h : s.At tokens i) (hend : tokens.getLast?.map Token.kind = some .endOfInput) :
    s.final.kind = .endOfInput := by
  have hlast : tokens.getLast? = some s.final := by
    rw [← List.take_append_drop i tokens, h, ← List.append_assoc, List.getLast?_concat]
  rw [hlast] at hend
  exact Option.some.inj hend

/-- The tokens passed stand between the two places. -/
theorem Passes.at_add {s' : Stream} {ts : List Token} (h : s.Passes ts s') (hat : s.At tokens i) :
    s'.At tokens (i + ts.length) ∧ ∀ n < ts.length, tokens[i + n]? = ts[n]? := by
  unfold At at hat
  rw [h.tokens, List.append_assoc] at hat
  constructor
  · unfold At
    rw [← List.drop_drop, hat, List.drop_left, h.final]
  · intro n hn
    rw [← List.getElem?_drop, hat, List.getElem?_append_left hn]

theorem at_ofTokens (source : List Char) (hend : tokens.getLast?.map Token.kind = some .endOfInput) :
    (ofTokens source tokens).At tokens 0 := by
  obtain ⟨t, ht, -⟩ := Option.map_eq_some_iff.mp hend
  unfold At ofTokens
  rw [ht]
  exact (List.dropLast_append_getLast? t ht).symm

end Stream

namespace Parser

variable {α : Type} {tokens : List Token} {strict : Bool}

/-- What a successful call takes are tokens of the list, at least one if `strict`, and none is an end of input. -/
def Progresses (tokens : List Token) (strict : Bool) (p : Parser α) : Prop :=
  ∀ i s a s', s.At tokens i → p s = .ok (a, s') → ∃ j, s'.At tokens j ∧ i ≤ j ∧ (strict = true → i < j) ∧
    ∀ n t, i ≤ n → n < j → tokens[n]? = some t → t.kind ≠ .endOfInput

theorem Progresses.of_moves {p : Parser α} (hp : ∀ k, MovesOn k strict p)
    (hend : tokens.getLast?.map Token.kind = some .endOfInput) : Progresses tokens strict p := by
  intro i s a s' hat h
  obtain ⟨ts, hts, hne⟩ := (hp s.tokens.length s ⟨hat.final_kind hend, le_rfl⟩).moves a s' h
  obtain ⟨hat', hget⟩ := hts.at_add hat
  refine ⟨i + ts.length, hat', by omega, fun hstrict => ?_, fun n t hi hj ht => ?_⟩
  · have hpos := List.length_pos_iff.mpr (hne hstrict)
    omega
  · obtain ⟨m, rfl⟩ := Nat.exists_eq_add_of_le hi
    rw [hget m (by omega)] at ht
    exact hts.inner t (List.mem_of_getElem? ht)

/-- The parsers of expressions, from the one for all of them down to the level that binds most. -/
def expressionParsers (inner : Parser Expression) : List (Parser Expression) :=
  [inner, disjunction inner, conjunction inner, comparison inner, sum inner, product inner, unary inner,
    selection inner, primary inner]

theorem moves_expressionParsers {inner : Parser Expression} (hinner : ∀ k, MovesOn k true inner)
    {p : Parser Expression} (hp : p ∈ expressionParsers inner) (k : Nat) : MovesOn k true p := by
  simp only [expressionParsers, List.mem_cons, List.not_mem_nil, or_false] at hp
  rcases hp with rfl | rfl | rfl | rfl | rfl | rfl | rfl | rfl | rfl
  · exact hinner k
  · exact moves_disjunction fun j _ => hinner j
  · exact moves_conjunction fun j _ => hinner j
  · exact moves_comparison fun j _ => hinner j
  · exact moves_sum fun j _ => hinner j
  · exact moves_product fun j _ => hinner j
  · exact moves_unary fun j _ => hinner j
  · exact moves_selection fun j _ => hinner j
  · exact moves_primary fun j _ => hinner j

/-- Whatever is read takes a token; a block or a body may be empty. -/
structure Progressive (tokens : List Token) : Prop where
  expressions : ∀ inner, Nested inner → ∀ p ∈ expressionParsers inner, Progresses tokens true p
  argumentLists : ∀ inner, Nested inner → Progresses tokens true (arguments inner)
  selections : Progresses tokens true select
  statements : ∀ depth, Progresses tokens true (statementWithin depth)
  blocks : ∀ depth terminators, Progresses tokens false (block (statementWithin depth) terminators)
  bodies : Progresses tokens false body

/-- In a list of tokens that ends in an end of input, parsers progress, and with as many passes and levels as tokens are
left every loop and every nesting comes to its end. -/
theorem progress_and_termination (hend : tokens.getLast?.map Token.kind = some .endOfInput) :
    (∀ source, (Stream.ofTokens source tokens).At tokens 0) ∧ Progressive tokens ∧
      ∀ i s, s.At tokens i → Halts (tokens.length - i) s := by
  refine ⟨fun source => Stream.at_ofTokens source hend, ?_, fun i s hat => ?_⟩
  · exact {
      expressions := fun inner hinner p hp => .of_moves (moves_expressionParsers hinner.moves hp) hend
      argumentLists := fun inner hinner => .of_moves (fun _ => moves_arguments fun j _ => hinner.moves j) hend
      selections := .of_moves (fun _ => moves_select) hend
      statements := fun depth => .of_moves (fun _ => moves_statementWithin depth) hend
      blocks := fun depth terminators =>
        .of_moves (fun _ => moves_block (moves_statementWithin depth) terminators) hend
      bodies := .of_moves (fun _ => moves_body) hend }
  · rw [hat.length]
    exact halts_of_length_lt (hat.final_kind hend) (Nat.lt_succ_self _)

/-- A statement with another one, an index and a call inside. -/
def boardingText : String := "while not_empty dogs fee[1] = ::price(days: -1); end while;"

/-- It is read, up to a later place, from which on everything ends within the tokens left. -/
theorem progress_and_termination_boardingText :
    (tokenize boardingText).tokens.getLast?.map Token.kind = some .endOfInput ∧
      ∃ st s' j,
        statementWithin 20 (Stream.ofTokens boardingText.toList (tokenize boardingText).tokens) = .ok (st, s') ∧
        s'.At (tokenize boardingText).tokens j ∧ 0 < j ∧ Halts ((tokenize boardingText).tokens.length - j) s' := by
  have hend : (tokenize boardingText).tokens.getLast?.map Token.kind = some .endOfInput := by
    rw [Token.tokens_tokenize, List.getLast?_concat]
    rfl
  obtain ⟨hat, hprogress, hhalts⟩ := progress_and_termination hend
  have hread : (statementWithin 20 (Stream.ofTokens boardingText.toList
      (tokenize boardingText).tokens)).toOption.isSome = true := by decide +kernel
  cases h : statementWithin 20 (Stream.ofTokens boardingText.toList (tokenize boardingText).tokens) with
  | error e =>
    rw [h] at hread
    cases hread
  | ok r =>
    obtain ⟨j, hj, -, hlt, -⟩ := hprogress.statements 20 0 _ r.1 r.2 (hat _) h
    exact ⟨hend, r.1, r.2, j, rfl, hj, hlt rfl, hhalts j r.2 hj⟩

end Parser

end ObjectAction
