/-
Soundness of the parser: whatever it accepts is a word of the grammar. Each part of the parser has a lemma
that says which production its tokens spell; the parts that repeat or nest are followed by induction on their
bound.

Main statement: a body that is read from the tokens of a text derives all of them (`parseTokens_sound`).
-/
import ObjectAction.Proofs.Body.Expression
import ObjectAction.Proofs.Body.Taking
import ObjectAction.Proofs.Token.Cut

namespace ObjectAction

namespace Parser

/-! ## Arguments -/

section

variable {inner : Parser Expression} (hinner : Takes inner fun e w => e.Derives 0 w)
include hinner

theorem takes_argumentsUpTo (n : Nat) : Takes (argumentsUpTo inner n) Argument.DerivesUpTo := by
  induction n with
  | zero => exact .fail
  | succ n ih =>
    refine takes_mark.look fun start => ?_
    refine .name fun parameter => ?_
    refine .symbol ?_
    refine hinner.bind fun value u hvalue => ?_
    refine (takes_extentFrom start).look fun x => ?_
    have hargument : (Argument.mk x parameter value).Derives (.name parameter :: .symbol .colon :: u) := .mk hvalue
    refine .eatSymbol ?_ ?_
    · refine ih.bind fun rest w hrest => .pure ?_
      rw [List.append_nil]
      exact .more hargument hrest
    · exact .symbol (.pure (.last hargument))

theorem takes_arguments : Takes (arguments inner) Argument.DerivesList := by
  refine .symbol ?_
  refine .eatSymbol (.pure .empty) ?_
  refine takes_remaining.look fun n => ?_
  exact (takes_argumentsUpTo hinner n).mono fun _ _ h => .some h

/-! ## Primary expressions and selections -/

theorem takes_primary : Takes (primary inner) fun e w => e.Derives 6 w := by
  refine takes_mark.look fun start => ?_
  have hextent := takes_extentFrom start
  have harguments := takes_arguments hinner
  refine .kind fun s hs => ?_
  split
  case h_1 n hk => exact .advance hs hk nofun (hextent.look fun x => .pure .integer)
  case h_2 r hk => exact .advance hs hk nofun (hextent.look fun x => .pure .real)
  case h_3 content hk => exact .advance hs hk nofun (hextent.look fun x => .pure .string)
  case h_4 hk => exact .advance hs hk nofun (hextent.look fun x => .pure .boolean)
  case h_5 hk => exact .advance hs hk nofun (hextent.look fun x => .pure .boolean)
  case h_6 hk => exact .advance hs hk nofun (hextent.look fun x => .pure .self)
  case h_7 hk => exact .advance hs hk nofun (hextent.look fun x => .pure .selected)
  case h_8 hk =>
    refine .advance hs hk nofun (.symbol (.name fun parameter => ?_))
    exact hextent.look fun x => .pure .parameter
  case h_9 hk =>
    refine .advance hs hk nofun (.symbol (.name fun parameter => ?_))
    exact hextent.look fun x => .pure .parameter
  case h_10 hk =>
    refine .advance hs hk nofun ?_
    exact hinner.bind fun e w he => .symbol (.pure (.enclosed he))
  case h_11 hk =>
    refine .advance hs hk nofun (.name fun function => ?_)
    refine harguments.bind fun args w hargs => hextent.look fun x => .pure ?_
    rw [List.append_nil]
    exact .invoke .function hargs
  case h_12 owner hk =>
    refine .advance hs hk nofun (.name fun member => .kind fun s' hs' => .of_takes hs' ?_)
    split
    · refine harguments.bind fun args w hargs => hextent.look fun x => .pure ?_
      rw [List.append_nil]
      exact .invoke .unmarked hargs
    · exact hextent.look fun x => .pure .enumerator
  case h_13 =>
    refine .of_takes hs (.name fun variableName => ?_)
    exact hextent.look fun x => .pure .var

/-- Each selection goes on from what was selected before. -/
theorem takes_selections (start : Text.Mark) (n : Nat) {e : Expression} {u : List Terminal} (he : e.Derives 6 u) :
    Takes (selections inner start n e) fun e' w => e'.Derives 6 (u ++ w) := by
  have hextent := takes_extentFrom start
  induction n generalizing e u with
  | zero =>
    refine .pure ?_
    rwa [List.append_nil]
  | succ n ih =>
    refine .eatSymbol ?_ (.eatSymbol ?_ ?_)
    · refine .name fun member => .kind fun s hs => .of_takes hs ?_
      split
      · refine (takes_arguments hinner).bind fun args w hargs => hextent.look fun x => ?_
        have hcall : (Expression.invoke x (.receiver e) member args).Derives 6 _ := .invoke (.receiver he) hargs
        refine (ih hcall).mono fun e' v h => ?_
        simpa using h
      · refine hextent.look fun x => ?_
        have hfield : (Expression.field x e member).Derives 6 _ := .field he
        refine (ih hfield).mono fun e' v h => ?_
        simpa using h
    · refine hinner.bind fun position w hposition => .symbol (hextent.look fun x => ?_)
      have hindex : (Expression.index x e position).Derives 6 _ := .index he hposition
      refine (ih hindex).mono fun e' v h => ?_
      simpa using h
    · refine .pure ?_
      rwa [List.append_nil]

theorem takes_selection : Takes (selection inner) fun e w => e.Derives 6 w := by
  refine takes_mark.look fun start => ?_
  refine (takes_primary hinner).bind fun e u he => ?_
  exact takes_remaining.look fun n => takes_selections hinner start n he

end

/-! ## Operators -/

theorem unaryKeyword_eq_some {k : Keyword} {op : UnaryOperator} (h : unaryKeyword k = some op) :
    op.lexeme.kind = .keyword k := by
  cases k <;> cases h <;> rfl

/-- Which prefix operator stands ahead, if there is one. After a word that is also a name an operand has to
begin. -/
def Ahead (s : Stream) (op : UnaryOperator) : Prop :=
  s.current.kind = op.lexeme.kind ∧ (op.isWord = true → startsOperand (s.kindAt 1) = true)

theorem peeks_prefixOperator (s : Stream) : Peeks s prefixOperator fun o => ∀ op ∈ o, Ahead s op := by
  refine .kind ?_
  split
  case h_1 hk => exact .pure (by rintro _ ⟨⟩; exact ⟨hk, nofun⟩)
  case h_2 hk => exact .pure (by rintro _ ⟨⟩; exact ⟨hk, nofun⟩)
  case h_3 hk => exact .pure (by rintro _ ⟨⟩; exact ⟨hk, nofun⟩)
  case h_4 k _ hk =>
    refine .kindAt (.pure fun op hop => ?_)
    split at hop
    · rename_i hstarts
      exact ⟨hk.trans (unaryKeyword_eq_some hop).symm, fun _ => hstarts⟩
    · cases hop
  case h_5 => exact .pure nofun

/-- Prefix operators before an operand. -/
theorem takes_prefixed {inner : Parser Expression} (hinner : Takes inner fun e w => e.Derives 0 w) (n : Nat) :
    Takes (prefixed inner n) fun e w => e.Derives 5 w := by
  have hselection : Takes (selection inner) fun e w => e.Derives 5 w :=
    (takes_selection hinner).mono fun _ _ h => .looser (by decide) h
  induction n with
  | zero => exact hselection
  | succ n ih =>
    refine takes_mark.look fun start s hs => ?_
    refine .peek (peeks_prefixOperator s) fun o ho => ?_
    cases o with
    | none => exact .of_takes hs hselection
    | some op =>
      obtain ⟨hkind, hword⟩ := ho op rfl
      have hne : op.lexeme.kind ≠ .endOfInput := by cases op <;> nofun
      -- what the operand begins with stands right behind the operator, where no sign does
      refine .take hs (hkind ▸ hne) (x := op.terminal) hkind fun hs' => ?_
      refine (ih _ hs').first.bind hs' fun operand w hoperand => ?_
      refine (takes_extentFrom start).look fun x => .pure ?_
      rw [List.append_nil]
      refine .unary hoperand.1 fun hop hsigned => ?_
      have hstarts := hword hop
      rw [← Stream.kind_tail] at hstarts
      rcases hsigned with h | h
      · have hk : s.tail.current.kind = .symbol .minus := hoperand.2 _ h
        rw [hk] at hstarts
        cases hstarts
      · have hk : s.tail.current.kind = .symbol .plus := hoperand.2 _ h
        rw [hk] at hstarts
        cases hstarts

section

variable {operator : Token.Kind → Option BinaryOperator} {operand : Parser Expression} {n : Nat}
  (hk : KnowsLevel operator n) (hoperand : Takes operand fun e w => e.Derives (n + 1) w)
include hk hoperand

/-- Each operation goes on from what was joined before. -/
theorem takes_operations (hn : n ≠ 2) (start : Text.Mark) (m : Nat) {e : Expression} {u : List Terminal}
    (he : e.Derives n u) : Takes (operations operator operand start m e) fun e' w => e'.Derives n (u ++ w) := by
  induction m generalizing e u with
  | zero =>
    refine .pure ?_
    rwa [List.append_nil]
  | succ m ih =>
    refine .kind fun s hs => ?_
    split
    · refine .of_takes hs (.pure ?_)
      rwa [List.append_nil]
    · rename_i op hop
      obtain ⟨hkind, rfl⟩ := hk.only _ op hop
      have hne : op.lexeme.kind ≠ .endOfInput := by cases op <;> nofun
      have hleft : op.leftLevel = op.level := if_neg hn
      refine .advance hs hkind hne (hoperand.bind fun right w hright => ?_)
      refine (takes_extentFrom start).look fun x => ?_
      have hjoined : (Expression.binary x e op right).Derives op.level _ := .binary (hleft ▸ he) hright
      refine (ih hjoined).mono fun e' v h => ?_
      simpa [BinaryOperator.terminal] using h

theorem takes_leftAssociative (hn : n ≠ 2) : Takes (leftAssociative operator operand) fun e w => e.Derives n w := by
  refine takes_mark.look fun start => ?_
  refine hoperand.bind fun e u he => ?_
  refine takes_remaining.look fun m => ?_
  exact takes_operations hk hoperand hn start m (.looser n.le_succ he)

theorem takes_nonAssociative (hn : n = 2) : Takes (nonAssociative operator operand) fun e w => e.Derives n w := by
  refine takes_mark.look fun start => ?_
  refine hoperand.bind fun e u he => ?_
  refine .kind fun s hs => ?_
  split
  · refine .of_takes hs (.pure ?_)
    rw [List.append_nil]
    exact .looser n.le_succ he
  · rename_i op hop
    obtain ⟨hkind, rfl⟩ := hk.only _ op hop
    have hne : op.lexeme.kind ≠ .endOfInput := by cases op <;> nofun
    have hleft : op.leftLevel = op.level + 1 := by
      unfold BinaryOperator.leftLevel
      rw [if_pos hn, hn]
    refine .advance hs hkind hne (hoperand.bind fun right w hright => .kind fun s' hs' => .of_takes hs' ?_)
    -- that no second operator follows is checked, but both operands are sums without it
    have hjoined : ∀ x, (Expression.binary x e op right).Derives op.level _ := fun x => .binary (hleft ▸ he) hright
    split
    · exact .fail
    · refine (takes_extentFrom start).look fun x => .pure ?_
      simpa [BinaryOperator.terminal] using hjoined x

end

/-! ## Whole expressions -/

theorem takes_disjunction {inner : Parser Expression} (hinner : Takes inner fun e w => e.Derives 0 w) :
    Takes (disjunction inner) fun e w => e.Derives 0 w := by
  have hunary : Takes (unary inner) fun e w => e.Derives 5 w :=
    takes_remaining.look fun n => takes_prefixed hinner n
  have hproduct := takes_leftAssociative knowsLevel_product hunary (by decide)
  have hsum := takes_leftAssociative knowsLevel_sum hproduct (by decide)
  have hcomparison := takes_nonAssociative knowsLevel_comparison hsum rfl
  have hconjunction := takes_leftAssociative knowsLevel_conjunction hcomparison (by decide)
  exact takes_leftAssociative knowsLevel_disjunction hconjunction (by decide)

theorem takes_expressionWithin (n : Nat) : Takes (expressionWithin n) fun e w => e.Derives 0 w := by
  induction n with
  | zero => exact .fail
  | succ n ih => exact takes_disjunction ih

theorem takes_expression : Takes expression fun e w => e.Derives 0 w :=
  takes_remaining.look fun n => takes_expressionWithin (n + 1)

theorem takes_operand : Takes operand fun e w => e.Derives 6 w := takes_selection takes_expression

/-! ## Assignments and invocations -/

/-- What follows the extent of a statement, with what was taken before it. -/
def Continues (before : List Terminal) (form : Form) (w : List Terminal) : Prop :=
  ∀ x : Extent, (form x).Derives (before ++ w)

theorem peeks_requireAssignable (s : Stream) (target : Expression) :
    Peeks s (requireAssignable target) fun _ => target.isAssignable = true := by
  unfold requireAssignable
  split
  · rename_i h
    exact .pure h
  · intro a s' h
    cases h

theorem takes_expressionStatement : Takes expressionStatement (Continues []) := by
  refine takes_operand.bind fun e u he => ?_
  refine .kind fun s hs => ?_
  split
  · rename_i hequal
    refine .peek (peeks_requireAssignable s e) fun _ hplace => ?_
    refine .advance hs (isSymbol_iff.mp hequal) nofun ?_
    refine takes_expression.bind fun value w hvalue => ?_
    exact .symbol (.pure fun x => .assign (.inl rfl) hplace he hvalue)
  · refine .of_takes hs ?_
    split
    · rename_i hinvoke
      exact .symbol (.pure fun x => .invoke hinvoke he)
    · exact .fail

/-- An assignable expression and the sign after it. -/
theorem takes_assignmentTarget : Takes assignmentTarget fun target w =>
    target.isAssignable = true ∧ ∃ u, target.Derives 6 u ∧ w = u ++ [.symbol .equal] := by
  refine takes_operand.bind fun target u htarget => ?_
  intro s hs
  refine .peek (peeks_requireAssignable s target) fun _ hplace => .of_takes hs ?_
  exact .symbol (.pure ⟨hplace, u, htarget, rfl⟩)

theorem takes_assignment : Takes assignment (Continues [.keyword .assign]) := by
  refine takes_assignmentTarget.bind ?_
  rintro target _ ⟨hplace, u, htarget, rfl⟩
  refine takes_expression.bind fun value w hvalue => .symbol (.pure fun x => ?_)
  have h : (Statement.assign x target value).Derives _ := .assign (.inr rfl) hplace htarget hvalue
  simpa using h

/-- The callees that a marker makes of an owner. -/
def Marks (k : Keyword) (callee : String → Callee) : Prop :=
  ∀ owner, (callee owner).marker = some k ∧ (callee owner).markedOwner = some owner

theorem takes_markedInvocation {k : Keyword} {callee : String → Callee} (hmarks : Marks k callee) :
    Takes (markedInvocation callee) (Expression.DerivesMarked k) := by
  refine takes_mark.look fun start => .kind fun s hs => ?_
  split
  · rename_i owner hk
    refine .advance hs hk nofun (.name fun operation => ?_)
    refine (takes_arguments takes_expression).bind fun args w hargs => ?_
    refine (takes_extentFrom start).look fun x => .pure ?_
    rw [List.append_nil]
    exact .invoke (hmarks owner).1 (hmarks owner).2 hargs
  · exact .of_takes hs .fail

theorem takes_markedStatement {k : Keyword} {callee : String → Callee} (hmarks : Marks k callee) :
    Takes (markedStatement callee) (Continues [.keyword k]) := by
  refine .kind fun s hs => ?_
  split
  · refine .of_takes hs ?_
    refine (takes_markedInvocation hmarks).bind fun invocation w hinvocation => ?_
    exact .symbol (.pure fun x => .invokeMarked hinvocation)
  · rename_i hqualifier
    refine (takes_assignmentTarget s hs).first.bind hs ?_
    rintro target _ ⟨⟨hplace, u, htarget, rfl⟩, hfirst⟩
    refine (takes_markedInvocation hmarks).bind fun value w hvalue => .symbol (.pure fun x => ?_)
    have hhead : ∀ owner, u.head? ≠ some (.qualifier owner) := by
      intro owner hu
      exact hqualifier owner (hfirst (.qualifier owner) (by rw [List.head?_append, hu]; rfl))
    have h : (Statement.assign x target value).Derives _ := .assignMarked hplace htarget hhead hvalue
    simpa using h

/-! ## Relationships and selections -/

theorem takes_relationship : Takes relationship fun r w => w = r.terminals := by
  refine .name fun id => .kind fun s hs => .kindAt ?_
  split
  · rename_i phrase hdot hphrase
    refine .take hs (hdot ▸ nofun) (x := .symbol .dot) hdot fun hs' => ?_
    rw [← Stream.kind_tail] at hphrase
    exact .advance hs' hphrase nofun (.pure rfl)
  · exact .of_takes hs (.pure rfl)

theorem takes_someName {expected : String} :
    Takes (some <$> name expected) fun o w => ∃ n, o = some n ∧ w = [.name n] :=
  .map (takes_name.mono fun n _ h => ⟨n, rfl, h⟩)

theorem takes_across : Takes across fun r w => w = r.1.acrossTerminals r.2 ++ [.symbol .semicolon] := by
  refine .keyword (takes_relationship.bind ?_)
  rintro r _ rfl
  refine .eatKeyword ?_ ?_
  · refine takes_someName.bind ?_
    rintro _ _ ⟨link, rfl, rfl⟩
    refine .symbol (.pure ?_)
    simp [Relationship.acrossTerminals]
  · refine .pure_bind (.symbol (.pure ?_))
    simp [Relationship.acrossTerminals]

theorem takes_relate : Takes relate (Continues [.keyword .relate]) := by
  refine .name fun source => .keyword (.name fun target => takes_across.bind ?_)
  rintro ⟨r, link⟩ _ rfl
  refine .pure fun x => ?_
  rw [List.append_nil]
  exact .relate

theorem takes_unrelate : Takes unrelate (Continues [.keyword .unrelate]) := by
  refine .name fun source => .keyword (.name fun target => takes_across.bind ?_)
  rintro ⟨r, link⟩ _ rfl
  refine .pure fun x => ?_
  rw [List.append_nil]
  exact .unrelate

theorem takes_condition : Takes condition Expression.DerivesCondition :=
  .eatKeyword (.map (takes_expression.mono fun _ _ h => .some h)) (.pure .none)

theorem takes_navigationStart : Takes navigationStart fun start w => w = [start.terminal] :=
  .eatKeyword (.pure rfl) (.eatKeyword (.pure rfl) (.name fun _ => .pure rfl))

/-- What follows the arrow of a step. -/
theorem takes_navigationStep (start : Text.Mark) :
    Takes (navigationStep start) fun step w => .symbol .arrow :: w = step.terminals := by
  refine .name fun className => .symbol (takes_relationship.bind ?_)
  rintro r _ rfl
  exact .symbol ((takes_extentFrom start).look fun x => .pure rfl)

theorem takes_navigationSteps (n : Nat) :
    Takes (navigationSteps n) fun chain w => w = chain.flatMap NavigationStep.terminals := by
  induction n with
  | zero => exact .pure rfl
  | succ n ih =>
    refine takes_mark.look fun start => .eatSymbol ?_ (.pure rfl)
    refine (takes_navigationStep start).bind fun step u hstep => ih.bind ?_
    rintro chain _ rfl
    refine .pure ?_
    rw [List.append_nil, List.flatMap_cons, ← hstep]
    rfl

theorem takes_navigationChain : Takes navigationChain fun chain w =>
    chain ≠ [] ∧ w = chain.flatMap NavigationStep.terminals := by
  refine takes_mark.look fun start => .symbol ?_
  refine (takes_navigationStep start).bind fun step u hstep => takes_remaining.look fun n => ?_
  refine (takes_navigationSteps n).bind ?_
  rintro chain _ rfl
  refine .pure ⟨nofun, ?_⟩
  rw [List.append_nil, List.flatMap_cons, ← hstep]
  rfl

theorem takes_cardinality : Takes cardinality fun c w => w = [c.terminal] :=
  .eatKeyword (.pure rfl) (.eatKeyword (.pure rfl) (.eatKeyword (.pure rfl) .fail))

theorem takes_select : Takes select (Continues [.keyword .select]) := by
  refine .get fun s hs => .of_takes hs (takes_cardinality.bind ?_)
  rintro card _ rfl
  refine .name fun result => .eatKeyword ?_ ?_
  · simp only [↓reduceIte]
    split
    · have hfail : Takes (failAt s.current "'any' or 'many'" : Parser Unit) fun _ _ => False := .failAt
      exact hfail.bind fun _ _ h => h.elim
    · rename_i hone
      refine .keyword (.keyword (.name fun className => ?_))
      refine takes_condition.bind fun filter w hfilter => .symbol (.pure fun x => ?_)
      exact .selectFrom hone hfilter
  · refine .keyword (.keyword (takes_navigationStart.bind ?_))
    rintro start _ rfl
    refine takes_navigationChain.bind ?_
    rintro chain _ ⟨hchain, rfl⟩
    refine takes_condition.bind fun filter w hfilter => .symbol (.pure fun x => ?_)
    exact .selectRelated hchain hfilter

/-! ## Instances and events -/

theorem takes_createInstance : Takes createInstance (Continues [.keyword .create, .keyword .object]) := by
  refine .keyword (.kind fun s hs => .kindAt (.kindAt (.of_takes hs ?_)))
  have hname : Takes (some <$> name "variable name") fun o w => w = o.toList.map Terminal.name :=
    takes_someName.mono (by rintro _ _ ⟨n, rfl, rfl⟩; rfl)
  dsimp only
  split
  · exact .pure_bind (.keyword (.name fun className => .symbol (.pure fun x => .create)))
  · refine hname.bind ?_
    rintro result _ rfl
    exact .keyword (.name fun className => .symbol (.pure fun x => .create))

theorem takes_delete : Takes delete (Continues [.keyword .delete]) :=
  .keyword (.keyword (.name fun _ => .symbol (.pure fun _ => .delete)))

theorem takes_eventMeaning : Takes eventMeaning EventSpec.DerivesMeaning := by
  refine .eatSymbol ?_ (.pure .none)
  refine .kind fun s hs => ?_
  split
  · rename_i phrase hk
    exact .advance hs hk nofun (.pure .phrase)
  · exact .of_takes hs (.name fun m => .pure .name)

theorem takes_eventSpec : Takes eventSpec EventSpec.Derives := by
  refine .name fun label => takes_eventMeaning.bind fun meaning u hmeaning => ?_
  refine .kind fun s hs => .of_takes hs ?_
  have harguments := (takes_arguments takes_expression).mono fun _ _ h => EventSpec.DerivesArguments.list h
  split
  · refine harguments.bind fun args w hargs => .pure ?_
    rw [List.append_nil]
    exact .mk hmeaning hargs
  · exact .pure (.mk hmeaning .none)

theorem takes_eventTarget : Takes eventTarget EventTarget.Derives := by
  refine .kind fun s hs => .kindAt ?_
  split
  · rename_i hname hclass
    rw [← Stream.kind_tail] at hclass
    exact .name hs hname fun hs' => .advance hs' hclass nofun (.pure .ofClass)
  · rename_i hname hcreator
    rw [← Stream.kind_tail] at hcreator
    exact .name hs hname fun hs' => .advance hs' hcreator nofun (.pure .creator)
  · refine .of_takes hs (takes_expression.bind fun target w htarget => .pure ?_)
    rw [List.append_nil]
    exact .receiver htarget

theorem takes_addressedEvent : Takes addressedEvent fun r w => ∃ u v, r.1.Derives u ∧ r.2.Derives v ∧
    w = u ++ .keyword .«to» :: (v ++ [.symbol .semicolon]) := by
  refine takes_eventSpec.bind fun event u hevent => .keyword ?_
  refine takes_eventTarget.bind fun target v htarget => .symbol (.pure ?_)
  exact ⟨u, v, hevent, htarget, rfl⟩

theorem takes_createEvent : Takes createEvent (Continues [.keyword .create, .keyword .event]) := by
  refine .keyword (.name fun result => .keyword (takes_addressedEvent.bind ?_))
  rintro ⟨event, target⟩ _ ⟨u, v, hevent, htarget, rfl⟩
  refine .pure fun x => ?_
  rw [List.append_nil]
  exact .createEvent hevent htarget

theorem takes_create : Takes create (Continues [.keyword .create]) :=
  .eatKeyword takes_createInstance (.keyword takes_createEvent)

theorem takes_generate : Takes generate (Continues [.keyword .generate]) := by
  refine .kind fun s hs => .kindAt (.of_takes hs ?_)
  split
  · exact .name fun event => .symbol (.pure fun x => .generateCreated)
  · refine takes_addressedEvent.bind ?_
    rintro ⟨event, target⟩ _ ⟨u, v, hevent, htarget, rfl⟩
    refine .pure fun x => ?_
    rw [List.append_nil]
    exact .generate hevent htarget

theorem takes_returnValue : Takes returnValue (Continues [.keyword .«return»]) := by
  refine .eatSymbol (.pure fun x => .returnNothing) ?_
  exact takes_expression.bind fun value w hvalue => .symbol (.pure fun x => .returnValue hvalue)

/-! ## Blocks -/

section

variable {inner : Parser Statement} (hinner : Takes inner Statement.Derives)
include hinner

theorem takes_statementsUpTo (terminators : List Keyword) (n : Nat) :
    Takes (statementsUpTo inner terminators n) Statement.DerivesAll := by
  induction n with
  | zero => exact .pure .nil
  | succ n ih =>
    refine .kind fun s hs => .of_takes hs ?_
    split
    · exact .pure .nil
    · refine .eatSymbol (ih.mono fun _ _ h => .semicolon h) ?_
      refine hinner.bind fun statement u hstatement => ih.bind fun rest w hrest => .pure ?_
      rw [List.append_nil]
      exact .cons hstatement hrest

theorem takes_block (terminators : List Keyword) : Takes (block inner terminators) Block.Derives := by
  refine takes_mark.look fun start => takes_remaining.look fun n => ?_
  refine (takes_statementsUpTo hinner terminators n).bind fun statements w h => ?_
  refine (takes_extentFrom start).look fun x => .pure ?_
  rw [List.append_nil]
  exact .mk h

theorem takes_elifs (n : Nat) : Takes (elifs inner n) Elif.DerivesAll := by
  induction n with
  | zero => exact .pure .nil
  | succ n ih =>
    refine takes_mark.look fun start => .eatKeyword ?_ (.pure .nil)
    refine takes_expression.bind fun test u htest => ?_
    refine (takes_block hinner branchEnds).bind fun body v hbody => ?_
    refine (takes_extentFrom start).look fun x => ih.bind fun rest w hrest => .pure ?_
    rw [List.append_nil]
    exact .cons htest hbody hrest

theorem takes_branch : Takes (branch inner) (Continues [.keyword .«if»]) := by
  refine takes_expression.bind fun test t htest => ?_
  refine (takes_block hinner branchEnds).bind fun body u hbody => takes_remaining.look fun n => ?_
  refine (takes_elifs hinner n).bind fun clauses v hclauses => .eatKeyword ?_ ?_
  · have hotherwise : Takes (some <$> block inner [.endIf]) fun o w =>
        Block.DerivesElse o (.keyword .«else» :: w) :=
      .map ((takes_block hinner [.endIf]).mono fun _ _ h => .some h)
    refine hotherwise.bind fun otherwise w h => .keyword (.symbol (.pure fun x => ?_))
    have hbranch : (Statement.branch x test body clauses otherwise).Derives _ := .branch htest hbody hclauses h
    simpa using hbranch
  · refine .pure_bind (.keyword (.symbol (.pure fun x => ?_)))
    have hbranch : (Statement.branch x test body clauses none).Derives _ := .branch htest hbody hclauses .none
    exact hbranch

theorem takes_forEach : Takes (forEach inner) (Continues [.keyword .«for»]) := by
  refine .keyword (.name fun item => .keyword (.name fun set => ?_))
  refine (takes_block hinner [.endFor]).bind fun body w hbody => ?_
  exact .keyword (.symbol (.pure fun x => .forEach hbody))

theorem takes_whileLoop : Takes (whileLoop inner) (Continues [.keyword .«while»]) := by
  refine takes_expression.bind fun test u htest => ?_
  refine (takes_block hinner [.endWhile]).bind fun body w hbody => ?_
  exact .keyword (.symbol (.pure fun x => .whileLoop htest hbody))

/-! ## Statements -/

theorem takes_keywordForm {k : Keyword} {p : Parser Form} (h : keywordForm inner k = some p) :
    Takes p (Continues [.keyword k]) := by
  unfold keywordForm at h
  split at h
  case h_1 => cases h; exact .symbol (.pure fun x => .breakLoop)
  case h_2 => cases h; exact .symbol (.pure fun x => .continueLoop)
  case h_3 => cases h; exact .keyword (.symbol (.pure fun x => .stop))
  case h_4 => cases h; exact takes_returnValue
  case h_5 => cases h; exact takes_assignment
  case h_6 => cases h; exact takes_markedStatement fun owner => ⟨rfl, rfl⟩
  case h_7 => cases h; exact takes_markedStatement fun owner => ⟨rfl, rfl⟩
  case h_8 => cases h; exact takes_markedStatement fun owner => ⟨rfl, rfl⟩
  case h_9 => cases h; exact takes_create
  case h_10 => cases h; exact takes_delete
  case h_11 => cases h; exact takes_relate
  case h_12 => cases h; exact takes_unrelate
  case h_13 => cases h; exact takes_select
  case h_14 => cases h; exact takes_forEach hinner
  case h_15 => cases h; exact takes_whileLoop hinner
  case h_16 => cases h; exact takes_branch hinner
  case h_17 => cases h; exact takes_generate
  case h_18 => cases h

theorem takes_form : Takes (form inner) (Continues []) := by
  refine .kind fun s hs => ?_
  split
  · rename_i k hk
    refine .kindAt ?_
    split
    · exact .of_takes hs takes_expressionStatement
    · split
      · rename_i p hp
        refine .advance hs hk nofun ?_
        exact takes_keywordForm hinner hp
      · exact .of_takes hs takes_expressionStatement
  · exact .of_takes hs takes_expressionStatement

theorem takes_statement : Takes (statement inner) Statement.Derives := by
  refine takes_mark.look fun start => (takes_form hinner).bind fun build w hbuild => ?_
  refine (takes_extentFrom start).look fun x => .pure ?_
  rw [List.append_nil]
  exact hbuild x

end

theorem takes_statementWithin (n : Nat) : Takes (statementWithin n) Statement.Derives := by
  induction n with
  | zero => exact .fail
  | succ n ih => exact takes_statement ih

/-! ## Whole bodies -/

theorem kind_of_endsBlock {k : Token.Kind} (h : endsBlock [] k = true) : k = .endOfInput := by
  cases k with
  | endOfInput => rfl
  | _ => cases h

/-- Where nothing but the end of input ends a block, all tokens are taken: every pass takes at least one, so that
as many passes as tokens are enough. -/
theorem tokens_eq_nil_of_statementsUpTo {inner : Parser Statement} (hinner : Takes inner Statement.Derives) (n : Nat)
    {s s' : Stream} (hs : s.Genuine) (hn : s.tokens.length ≤ n) {statements : List Statement}
    (h : statementsUpTo inner [] n s = .ok (statements, s')) : s'.tokens = [] := by
  induction n generalizing s statements with
  | zero =>
    cases h
    exact List.length_eq_zero_iff.mp (Nat.le_zero.mp hn)
  | succ n ih =>
    obtain ⟨k, s₁, hkind, h⟩ := ok_of_bind h
    obtain ⟨rfl, rfl⟩ : s.current.kind = k ∧ s = s₁ := by
      cases hkind
      exact ⟨rfl, rfl⟩
    by_cases hends : endsBlock [] s.current.kind = true
    · rw [if_pos hends] at h
      cases h
      exact hs.tokens_eq_nil (kind_of_endsBlock hends)
    · rw [if_neg hends] at h
      obtain ⟨b, s₁, heat, h⟩ := ok_of_bind h
      obtain ⟨ts, _, hts, hu, rfl⟩ := takes_eat (fun _ => isSymbol_iff) nofun s hs b s₁ heat
      have htokens := congrArg List.length hts.tokens
      rw [List.length_append, ← hu.length_eq] at htokens
      cases b with
      | true => exact ih (hts.genuine hs) (by simp at htokens; omega) h
      | false =>
        obtain ⟨statement, s₂, hstatement, h⟩ := ok_of_bind h
        obtain ⟨us, v, hus, hv, hderives⟩ := hinner s₁ (hts.genuine hs) statement s₂ hstatement
        have hpos := List.length_pos_iff.mpr hderives.ne_nil
        have htokens' := congrArg List.length hus.tokens
        rw [List.length_append, ← hv.length_eq] at htokens'
        obtain ⟨rest, s₃, hrest, h⟩ := ok_of_bind h
        cases h
        exact ih (hus.genuine (hts.genuine hs)) (by simp at htokens; omega) hrest

/-- A body takes all tokens. -/
theorem derives_of_body {s s' : Stream} (hs : s.Genuine) {b : Body} (h : body s = .ok (b, s')) :
    ∃ w, b.Derives w ∧ List.Forall₂ (Terminal.Matches s.source) w s.tokens := by
  obtain ⟨n, s₁, hn, h⟩ := ok_of_bind h
  obtain ⟨rfl, rfl⟩ : s.tokens.length = n ∧ s = s₁ := by
    cases hn
    exact ⟨rfl, rfl⟩
  obtain ⟨whole, s₁, hblock, h⟩ := ok_of_bind h
  cases h
  obtain ⟨start, s₂, hmark, hblock⟩ := ok_of_bind hblock
  cases hmark
  obtain ⟨m, s₂, hm, hblock⟩ := ok_of_bind hblock
  cases hm
  obtain ⟨statements, s₂, hstatements, hblock⟩ := ok_of_bind hblock
  obtain ⟨x, s₃, hx, hblock⟩ := ok_of_bind hblock
  cases hx
  cases hblock
  have hinner := takes_statementWithin (s.tokens.length + 1)
  obtain ⟨ts, w, hts, hw, hderives⟩ := takes_statementsUpTo hinner [] _ s hs _ _ hstatements
  have hend := tokens_eq_nil_of_statementsUpTo hinner _ hs le_rfl hstatements
  rw [hts.tokens, hend, List.append_nil]
  exact ⟨w, .mk hderives, hw⟩

end Parser

/-- The tokens of a text are its source texts. -/
theorem genuine_ofTokens (text : String) : (Stream.ofTokens text.toList (tokenize text).tokens).Genuine := by
  have hcut := Token.cut_pieces text.toList
  unfold Stream.ofTokens
  rw [Token.tokens_tokenize, List.dropLast_concat, List.getLast?_concat]
  exact ⟨rfl, fun t ht => hcut.kind_ne_endOfInput ht, fun t ht => (hcut.slice_token ht).2⟩

/-- What is read from the tokens of a text is a body that derives all of them up to the end of input. -/
theorem parseTokens_sound {text : String} {b : Body} (h : parseTokens text (tokenize text).tokens = .ok b) :
    ∃ ts m w, (tokenize text).tokens = ts ++ [Token.atEnd m] ∧ b.Derives w ∧
      List.Forall₂ (Terminal.Matches text.toList) w ts := by
  have hs := genuine_ofTokens text
  have htokens : (Stream.ofTokens text.toList (tokenize text).tokens).tokens = (tokenize text).tokens.dropLast := rfl
  have hsource : (Stream.ofTokens text.toList (tokenize text).tokens).source = text.toList := rfl
  unfold parseTokens at h
  generalize Stream.ofTokens text.toList (tokenize text).tokens = s at h hs htokens hsource
  obtain ⟨s', hbody⟩ : ∃ s', Parser.body s = .ok (b, s') := by
    change (Prod.fst <$> Parser.body s) = .ok b at h
    cases hrun : Parser.body s with
    | error e =>
      rw [hrun] at h
      cases h
    | ok r =>
      rw [hrun] at h
      cases h
      exact ⟨r.2, rfl⟩
  obtain ⟨w, hw, hmatches⟩ := Parser.derives_of_body hs hbody
  rw [htokens, hsource, Token.tokens_tokenize, List.dropLast_concat] at hmatches
  exact ⟨_, _, w, Token.tokens_tokenize text, hw, hmatches⟩

/-- A text with everything that leaves no trace in the tree. -/
def kennelText : String :=
  "assign fee = (2 + days) * -3;; If not_empty dog bridge Fed = VET::feed(id: 1); generate D1() to dog; end if;"

/-- Its two statements derive all its tokens. -/
theorem parseTokens_sound_kennelText : ∃ b, parseTokens kennelText (tokenize kennelText).tokens = .ok b ∧
    b.block.statements.length = 2 ∧ ∃ ts m w, (tokenize kennelText).tokens = ts ++ [Token.atEnd m] ∧
      b.Derives w ∧ List.Forall₂ (Terminal.Matches kennelText.toList) w ts := by
  have hrun : (parseTokens kennelText (tokenize kennelText).tokens).toOption.map
      (fun b => b.block.statements.length) = some 2 := by decide +kernel
  cases h : parseTokens kennelText (tokenize kennelText).tokens with
  | error e =>
    rw [h] at hrun
    cases hrun
  | ok b =>
    rw [h] at hrun
    exact ⟨b, rfl, Option.some.inj hrun, parseTokens_sound h⟩

end ObjectAction
