/-
Statements without blocks are read back from their lexemes. Each production of the grammar has a lemma
that says what it reads, up to the extents of what it gives.
-/
import ObjectAction.Proofs.Body.Expression

namespace ObjectAction

open Lexeme

namespace Parser

variable {rest : List Lexeme}

/-- An expression up to what closes its place. -/
theorem reads_closed {e : Expression} (hw : e.isWellFormed = true) {y : Symbol}
    (hy : y ∈ [Symbol.rightParen, .rightBracket, .comma, .semicolon]) (rest : List Lexeme) :
    Reads expression e.lexemes (.symbol y :: rest) (·.bare = e.bare) :=
  (reads_expression e.lexemes.length).closed hw le_rfl hy rest

theorem isKeyword_name {w : String} (h : Lexeme.isName w = true) {k : Keyword} (hk : k.isReserved = true) :
    isKeyword k (Lexeme.name w).kind = false := by
  rcases name_kind h with hw | ⟨k', hw, hr⟩ <;> rw [hw]
  · rfl
  · refine decide_eq_false ?_
    rintro rfl
    rw [hk] at hr
    cases hr

theorem reads_someName {w expected : String} (h : Lexeme.isName w = true) :
    Reads (some <$> name expected) [.name w] rest (· = some w) :=
  .map (reads_name h) fun _ hv => congrArg some hv

/-! ## Relationships and conditions -/

theorem reads_relationship {r : Relationship} (hw : r.isWellFormed = true)
    (hrest : isSymbol .dot (headKind rest) = false) : Reads relationship r.lexemes rest (· = r) := by
  obtain ⟨id, phrase⟩ := r
  obtain ⟨hid, _⟩ := Bool.and_eq_true_iff.mp hw
  unfold relationship Relationship.lexemes
  refine .step (reads_name hid) ?_
  rintro id rfl
  refine .look reads_kind ?_
  rintro _ rfl
  refine .look (reads_kindAt 1) ?_
  rintro _ rfl
  cases phrase with
  | some p =>
    refine .step reads_advance fun _ _ => ?_
    exact .step reads_advance fun _ _ => .pure rfl
  | none =>
    rw [List.nil_append]
    split
    · rename_i hdot _
      rw [hdot] at hrest
      cases hrest
    · exact .pure rfl

/-- The rest of a `relate` or `unrelate`. -/
theorem reads_across {r : Relationship} (hr : r.isWellFormed = true) {link : Option String}
    (hlink : link.all Lexeme.isName = true) : Reads across (r.acrossLexemes link) rest (· = (r, link)) := by
  unfold across Relationship.acrossLexemes
  cases link with
  | none =>
    rw [List.append_nil]
    refine .step reads_keyword fun _ _ => ?_
    refine .bind (reads_relationship hr rfl) ?_
    rintro r rfl
    refine .look (reads_eat_other rfl) ?_
    rintro _ rfl
    refine .look (.pure rfl) ?_
    rintro _ rfl
    exact .step reads_symbol fun _ _ => .pure rfl
  | some l =>
    rw [List.append_assoc]
    refine .step reads_keyword fun _ _ => ?_
    refine .bind (reads_relationship hr rfl) ?_
    rintro r rfl
    refine .step (reads_eat rfl) ?_
    rintro _ rfl
    refine .step (reads_someName hlink) ?_
    rintro _ rfl
    exact .step reads_symbol fun _ _ => .pure rfl

/-- A condition, if there is one, up to the end of its statement. -/
theorem reads_condition {condition' : Option Expression} (hw : condition'.all Expression.isWellFormed = true)
    {α : Type} {f : Option Expression → Parser α} {Q : α → Prop}
    (hf : ∀ c, c.map Expression.bare = condition'.map Expression.bare → Reads (f c) [.symbol .semicolon] rest Q) :
    Reads (condition >>= f) (Expression.conditionLexemes condition') rest Q := by
  unfold condition
  cases condition' with
  | none =>
    refine .look (P := (· = none)) ?_ fun c hc => hf c (by rw [hc])
    refine .look (reads_eat_other rfl) ?_
    rintro _ rfl
    exact .pure rfl
  | some e =>
    show Reads _ ((.keyword .«where» :: e.lexemes) ++ [.symbol .semicolon]) rest Q
    refine .bind (P := fun c => c.map Expression.bare = some e.bare) ?_ hf
    refine .step (reads_eat rfl) ?_
    rintro _ rfl
    exact .map (reads_closed hw (by simp) rest) fun a ha => congrArg some ha

/-! ## Navigation -/

theorem reads_navigationStart {start : NavigationStart} (hw : start.isWellFormed = true) :
    Reads navigationStart [start.lexeme] rest (· = start) := by
  unfold navigationStart
  cases start with
  | self =>
    refine .step (reads_eat rfl) ?_
    rintro _ rfl
    exact .pure rfl
  | selected =>
    refine .look (reads_eat_other rfl) ?_
    rintro _ rfl
    refine .step (reads_eat rfl) ?_
    rintro _ rfl
    exact .pure rfl
  | var w =>
    refine .look (reads_eat_other (isKeyword_name hw rfl)) ?_
    rintro _ rfl
    refine .look (reads_eat_other (isKeyword_name hw rfl)) ?_
    rintro _ rfl
    refine .step (reads_name hw) ?_
    rintro _ rfl
    exact .pure rfl

/-- What follows the arrow of a step. -/
theorem reads_navigationStep {s : NavigationStep} (hw : s.isWellFormed = true) (start : Text.Mark) :
    Reads (navigationStep start) (.name s.className :: .symbol .leftBracket :: s.relationship.lexemes ++
      [.symbol .rightBracket]) rest (·.bare = s.bare) := by
  obtain ⟨x, className, r⟩ := s
  obtain ⟨hname, hr⟩ := Bool.and_eq_true_iff.mp hw
  unfold navigationStep
  refine .step (reads_name hname) ?_
  rintro className rfl
  refine .step reads_symbol fun _ _ => ?_
  refine .bind (reads_relationship hr rfl) ?_
  rintro r rfl
  refine .step reads_symbol fun _ _ => ?_
  exact .look (reads_extentFrom start) fun _ _ => .pure rfl

theorem reads_navigationSteps : ∀ (chain : List NavigationStep), chain.all NavigationStep.isWellFormed = true →
    ∀ m, chain.length ≤ m → isSymbol .arrow (headKind rest) = false →
    Reads (navigationSteps m) (chain.flatMap NavigationStep.lexemes) rest
      (fun c => c.map NavigationStep.bare = chain.map NavigationStep.bare)
  | [], _, 0, _, _ => .pure rfl
  | [], _, m + 1, _, hrest => by
    unfold navigationSteps
    refine .look reads_mark fun start _ => ?_
    refine .look (reads_eat_other hrest) ?_
    rintro _ rfl
    exact .pure rfl
  | s :: chain, hw, m + 1, hm, hrest => by
    obtain ⟨hs, hchain⟩ := Bool.and_eq_true_iff.mp hw
    have ih := reads_navigationSteps chain hchain m (Nat.le_of_succ_le_succ hm) hrest
    unfold navigationSteps
    rw [List.flatMap_cons]
    refine .look reads_mark fun start _ => ?_
    refine .step (reads_eat rfl) ?_
    rintro _ rfl
    refine .bind (reads_navigationStep hs start) fun t ht => ?_
    refine .last ih fun c hc => .pure ?_
    rw [List.map_cons, List.map_cons, ht, hc]

theorem length_le_flatMap (chain : List NavigationStep) :
    chain.length ≤ (chain.flatMap NavigationStep.lexemes).length := by
  induction chain with
  | nil => exact Nat.zero_le _
  | cons s chain ih =>
    rw [List.flatMap_cons, List.length_append, List.length_cons]
    have : 1 ≤ s.lexemes.length := by simp [NavigationStep.lexemes]
    omega

/-- At least one step. -/
theorem reads_navigationChain {chain : List NavigationStep} (hne : chain ≠ [])
    (hw : chain.all NavigationStep.isWellFormed = true) (hrest : isSymbol .arrow (headKind rest) = false) :
    Reads navigationChain (chain.flatMap NavigationStep.lexemes) rest
      (fun c => c.map NavigationStep.bare = chain.map NavigationStep.bare) := by
  obtain ⟨s, chain, rfl⟩ := List.exists_cons_of_ne_nil hne
  obtain ⟨hs, hchain⟩ := Bool.and_eq_true_iff.mp hw
  unfold navigationChain
  rw [List.flatMap_cons]
  refine .look reads_mark fun start _ => ?_
  refine .step reads_symbol fun _ _ => ?_
  refine .bind (reads_navigationStep hs start) fun t ht => ?_
  refine .look reads_remaining ?_
  rintro _ rfl
  have hlen := length_le_flatMap chain
  refine .last (reads_navigationSteps chain hchain _ (by rw [List.length_append]; omega) hrest)
    fun c hc => .pure ?_
  rw [List.map_cons, List.map_cons, ht, hc]

theorem reads_cardinality (c : Cardinality) : Reads cardinality [c.lexeme] rest (· = c) := by
  unfold cardinality
  cases c with
  | one =>
    refine .step (reads_eat rfl) ?_
    rintro _ rfl
    exact .pure rfl
  | any =>
    refine .look (reads_eat_other rfl) ?_
    rintro _ rfl
    refine .step (reads_eat rfl) ?_
    rintro _ rfl
    exact .pure rfl
  | many =>
    refine .look (reads_eat_other rfl) ?_
    rintro _ rfl
    refine .look (reads_eat_other rfl) ?_
    rintro _ rfl
    refine .step (reads_eat rfl) ?_
    rintro _ rfl
    exact .pure rfl

/-! ## Events -/

theorem reads_eventMeaning {meaning : Option String}
    (hw : meaning.all (fun m => Lexeme.isName m || isQuotable '\'' m) = true)
    (hrest : isSymbol .colon (headKind rest) = false) :
    Reads eventMeaning (EventSpec.meaningLexemes meaning) rest (· = meaning) := by
  unfold eventMeaning EventSpec.meaningLexemes
  cases meaning with
  | none =>
    refine .look (reads_eat_other hrest) ?_
    rintro _ rfl
    exact .pure rfl
  | some m =>
    refine .step (reads_eat rfl) ?_
    rintro _ rfl
    cases hm : Lexeme.isName m with
    | false =>
      refine .look reads_kind ?_
      rintro _ rfl
      exact .step reads_advance fun _ _ => .pure rfl
    | true =>
      have hname : Reads (name "event meaning" >>= fun v => Pure.pure (some v)) [.name m] rest (· = some m) := by
        refine .step (reads_name hm) ?_
        rintro _ rfl
        exact .pure rfl
      refine .look reads_kind ?_
      rintro _ rfl
      rw [if_pos rfl, List.cons_append, headKind_cons]
      rcases name_kind hm with hk | ⟨k, hk, _⟩ <;> rw [hk] <;> exact hname

theorem reads_eventSpec {event : EventSpec} (hw : event.isWellFormed = true)
    (hcolon : isSymbol .colon (headKind rest) = false) (hparen : isSymbol .leftParen (headKind rest) = false) :
    Reads eventSpec event.lexemes rest (·.bare = event.bare) := by
  obtain ⟨label, meaning, args⟩ := event
  simp only [EventSpec.isWellFormed, Bool.and_eq_true] at hw
  obtain ⟨⟨hlabel, hmeaning⟩, hargs⟩ := hw
  unfold eventSpec EventSpec.lexemes
  rw [List.cons_append]
  refine .step (reads_name hlabel) ?_
  rintro label rfl
  cases args with
  | nil =>
    refine .bind (reads_eventMeaning hmeaning hcolon) ?_
    rintro meaning rfl
    refine .look reads_kind ?_
    rintro _ rfl
    rw [List.isEmpty_nil, if_pos rfl, List.nil_append, hparen]
    refine .look (.pure rfl) ?_
    rintro _ rfl
    exact .pure rfl
  | cons arg args =>
    refine .bind (reads_eventMeaning hmeaning rfl) ?_
    rintro meaning rfl
    refine .look reads_kind ?_
    rintro _ rfl
    refine .last (reads_arguments (reads_expression _) hargs (Nat.le_succ _) rest) fun as has => .pure ?_
    simp only [EventSpec.bare, has]

theorem reads_eventTarget {target : EventTarget} (hw : target.isWellFormed = true) :
    Reads eventTarget target.lexemes (.symbol .semicolon :: rest) (·.bare = target.bare) := by
  have hname : ∀ {w : String}, Lexeme.isName w = true → isName (Lexeme.name w).kind = true := by
    intro w h
    exact (Bool.and_eq_true_iff.mp h).2
  unfold eventTarget
  refine .look reads_kind ?_
  rintro _ rfl
  refine .look (reads_kindAt 1) ?_
  rintro _ rfl
  cases target with
  | ofClass w =>
    rw [show isName (headKind (EventTarget.lexemes (.ofClass w) ++ .symbol .semicolon :: rest)) = true from hname hw]
    refine .step (reads_name hw) ?_
    rintro _ rfl
    exact .step reads_advance fun _ _ => .pure rfl
  | creator w =>
    rw [show isName (headKind (EventTarget.lexemes (.creator w) ++ .symbol .semicolon :: rest)) = true from hname hw]
    refine .step (reads_name hw) ?_
    rintro _ rfl
    exact .step reads_advance fun _ _ => .pure rfl
  | receiver e =>
    have henclosed : Reads expression (enclosed e.lexemes) (.symbol .semicolon :: rest) (·.bare = e.bare) :=
      reads_expression_enclosed hw (Follows.closer (by simp)).toEnds
    refine .last henclosed fun x hx => .pure ?_
    rw [EventTarget.bare, EventTarget.bare, hx]

/-- An event, where it goes and the end of the statement. -/
theorem reads_addressedEvent {event : EventSpec} {target : EventTarget} (he : event.isWellFormed = true)
    (ht : target.isWellFormed = true) :
    Reads addressedEvent (event.addressedLexemes target) rest
      (fun p => p.1.bare = event.bare ∧ p.2.bare = target.bare) := by
  unfold addressedEvent EventSpec.addressedLexemes
  rw [List.append_assoc]
  refine .bind (reads_eventSpec he rfl rfl) fun v hv => ?_
  refine .step reads_keyword fun _ _ => ?_
  refine .bind (reads_eventTarget ht) fun t ht => ?_
  exact .step reads_symbol fun _ _ => .pure ⟨hv, ht⟩

/-! ## Statements without blocks -/

/-- The parser reads the lexemes as the statement `s` up to extents. -/
def ReadsForm (p : Parser Form) (taken rest : List Lexeme) (s : Statement) : Prop :=
  Reads p taken rest fun build => ∀ x, (build x).bare = s.bare

theorem isAssignable_of_bare {e e' : Expression} (h : e'.bare = e.bare) : e'.isAssignable = e.isAssignable := by
  have hbare : ∀ e : Expression, e.bare.isAssignable = e.isAssignable := by
    intro e
    cases e <;> rfl
  rw [← hbare e', h, hbare e]

theorem isInvocation_of_bare {e e' : Expression} (h : e'.bare = e.bare) : e'.isInvocation = e.isInvocation := by
  have hbare : ∀ e : Expression, e.bare.isInvocation = e.isInvocation := by
    intro e
    cases e <;> rfl
  rw [← hbare e', h, hbare e]

theorem level_of_isAssignable {e : Expression} (h : e.isAssignable = true) : e.level = 6 := by
  cases e <;> first | rfl | cases h

theorem level_of_isInvocation {e : Expression} (h : e.isInvocation = true) : e.level = 6 := by
  cases e <;> first | rfl | cases h

theorem ends_equal {n : Nat} : Follows n (.symbol .equal) :=
  ⟨⟨rfl, rfl, fun op h => by cases op <;> cases h⟩, rfl⟩

theorem reads_requireAssignable {e : Expression} (h : e.isAssignable = true) :
    Reads (requireAssignable e) [] rest fun _ => True := by
  unfold requireAssignable
  rw [if_pos h]
  exact .pure trivial

/-- The target of an assignment and the `=` after it. -/
theorem reads_assignmentTarget {ls : List Lexeme} {e : Expression} (ha : e.isAssignable = true)
    (h : Reads operand ls (.symbol .equal :: rest) (·.bare = e.bare)) :
    Reads assignmentTarget (ls ++ [.symbol .equal]) rest (·.bare = e.bare) := by
  unfold assignmentTarget
  refine .bind h fun t ht => ?_
  refine .look (reads_requireAssignable ((isAssignable_of_bare ht).trans ha)) fun _ _ => ?_
  exact .step reads_symbol fun _ _ => .pure ht

/-- An assignment of a value without a marker. -/
theorem reads_assign {x : Extent} {target value : Expression} (ha : target.isAssignable = true)
    (ht : target.isWellFormed = true) (hv : value.isWellFormed = true) :
    ReadsForm expressionStatement (target.lexemes ++ .symbol .equal :: value.lexemes ++ [.symbol .semicolon]) rest
      (.assign x target value) := by
  unfold expressionStatement
  rw [List.append_assoc]
  refine .bind (reads_operand ht (level_of_isAssignable ha) ends_equal) fun t hbt => ?_
  refine .look reads_kind ?_
  rintro _ rfl
  refine .look (reads_requireAssignable ((isAssignable_of_bare hbt).trans ha)) fun _ _ => ?_
  refine .step reads_advance fun _ _ => ?_
  refine .bind (reads_closed hv (by simp) rest) fun v hbv => ?_
  refine .step reads_symbol fun _ _ => .pure fun y => ?_
  rw [Statement.bare, Statement.bare, hbt, hbv]

/-- An invocation without a marker. -/
theorem reads_invoke {x : Extent} {e : Expression} (hi : e.isInvocation = true) (hw : e.isWellFormed = true) :
    ReadsForm expressionStatement (e.lexemes ++ [.symbol .semicolon]) rest (.invoke x e) := by
  unfold expressionStatement
  refine .bind (reads_operand hw (level_of_isInvocation hi) (Follows.closer (by simp))) fun v hv => ?_
  refine .look reads_kind ?_
  rintro _ rfl
  rw [(isInvocation_of_bare hv).trans hi]
  refine .step reads_symbol fun _ _ => .pure fun y => ?_
  rw [Statement.bare, Statement.bare, hv]

/-! ## Statements with a marker -/

theorem reads_markedInvocation (callee : String → Callee) (x : Extent) {owner operation : String}
    {args : List Argument} (hname : Lexeme.isName operation = true) (hargs : Argument.areWellFormed args = true) :
    Reads (markedInvocation callee)
      (.qualifier owner :: .name operation :: .symbol .leftParen :: Argument.lexemes args) rest
      (·.bare = (Expression.invoke x (callee owner) operation args).bare) := by
  unfold markedInvocation
  refine .look reads_mark fun start _ => ?_
  refine .look reads_kind ?_
  rintro _ rfl
  refine .step reads_advance fun _ _ => ?_
  refine .step (reads_name hname) ?_
  rintro _ rfl
  refine .last (reads_arguments (reads_expression _) hargs (Nat.le_succ _) rest) fun as has => ?_
  refine .look (reads_extentFrom start) fun y _ => .pure ?_
  rw [Expression.bare, Expression.bare, has]

theorem reads_markedInvoke (callee : String → Callee) {x y : Extent} {owner operation : String}
    {args : List Argument} (hname : Lexeme.isName operation = true) (hargs : Argument.areWellFormed args = true) :
    ReadsForm (markedStatement callee)
      (.qualifier owner :: .name operation :: .symbol .leftParen :: Argument.lexemes args ++ [.symbol .semicolon])
      rest (.invoke x (.invoke y (callee owner) operation args)) := by
  unfold markedStatement
  refine .look reads_kind ?_
  rintro _ rfl
  refine .bind (reads_markedInvocation callee y hname hargs) fun v hv => ?_
  refine .step reads_symbol fun _ _ => .pure fun z => ?_
  rw [Statement.bare, Statement.bare, hv]

/-- The target of a marked assignment is read although its operand may stand in parentheses. -/
theorem reads_markedTarget {target : Expression} (ha : target.isAssignable = true)
    (hw : target.isWellFormed = true) :
    Reads operand target.markedTargetLexemes (.symbol .equal :: rest) (·.bare = target.bare) := by
  have hend : ∀ q, SelectedSoFar expression target (.symbol .equal :: rest) q →
      Reads q [] (.symbol .equal :: rest) (·.bare = target.bare) := fun q hq =>
    reads_selections_end (ends_equal (n := 6)).toEnds hq
  unfold Expression.markedTargetLexemes
  split
  · cases target with
    | var x w => exact reads_operand hw rfl ends_equal
    | field x t w =>
      obtain ⟨ht, hname⟩ := Bool.and_eq_true_iff.mp hw
      have hreach := reaches_selections (reads_enclosed (reads_expression _) ht le_rfl
        ([.symbol .dot, .name w] ++ .symbol .equal :: rest))
      exact (hreach.trans fun q hq => reaches_field hname rfl x hq).readsEnd hend
    | index x t position =>
      obtain ⟨ht, hposition⟩ := Bool.and_eq_true_iff.mp hw
      have hreach := reaches_selections (reads_enclosed (reads_expression _) ht le_rfl
        (.symbol .leftBracket :: position.lexemes ++ [.symbol .rightBracket] ++ .symbol .equal :: rest))
      show Reads operand (enclosed t.lexemes ++ .symbol .leftBracket :: position.lexemes ++ [.symbol .rightBracket])
        _ _
      rw [List.append_assoc]
      exact (hreach.trans fun q hq => reaches_index (reads_expression _) hposition le_rfl x hq).readsEnd hend
    | _ => cases ha
  · exact reads_operand hw (level_of_isAssignable ha) ends_equal

/-- It does not begin with a qualifier, which is why the operand may stand in parentheses. -/
theorem not_qualified_markedTarget {target : Expression} (ha : target.isAssignable = true)
    (hw : target.isWellFormed = true) (rest : List Lexeme) (owner : String) :
    headKind (target.markedTargetLexemes ++ rest) ≠ .qualifier owner := by
  unfold Expression.markedTargetLexemes
  split
  · cases target with
    | var x w =>
      show (Lexeme.name w).kind ≠ _
      rcases name_kind hw with h | ⟨k, h, _⟩ <;> rw [h] <;> nofun
    | field | index => nofun
    | _ => cases ha
  · rename_i hq
    obtain ⟨l, ls, hls⟩ := List.exists_cons_of_ne_nil target.lexemes_ne_nil
    rw [hls] at hq ⊢
    intro hl
    rw [List.cons_append, headKind_cons] at hl
    exact hq (by unfold beginsQualified; rw [headKind_cons, hl])

/-- An assignment of what a marked operation returns. -/
theorem reads_markedAssign (callee : String → Callee) {x y : Extent} {target : Expression}
    {owner operation : String} {args : List Argument} (ha : target.isAssignable = true)
    (ht : target.isWellFormed = true) (hname : Lexeme.isName operation = true)
    (hargs : Argument.areWellFormed args = true) :
    ReadsForm (markedStatement callee)
      (target.markedTargetLexemes ++ .symbol .equal ::
        (.qualifier owner :: .name operation :: .symbol .leftParen :: Argument.lexemes args) ++
        [.symbol .semicolon]) rest
      (.assign x target (.invoke y (callee owner) operation args)) := by
  have hread : Reads (do
      let target ← assignmentTarget
      let invocation ← markedInvocation callee
      semicolon
      return (.assign · target invocation))
      (target.markedTargetLexemes ++ .symbol .equal ::
        (.qualifier owner :: .name operation :: .symbol .leftParen :: Argument.lexemes args) ++
        [.symbol .semicolon]) rest
      (fun build : Form => ∀ z, (build z).bare =
        (Statement.assign x target (.invoke y (callee owner) operation args)).bare) := by
    rw [← List.singleton_append, ← List.append_assoc, List.append_assoc]
    refine .bind (reads_assignmentTarget ha (reads_markedTarget ha ht)) fun t hbt => ?_
    refine .bind (reads_markedInvocation callee y hname hargs) fun v hbv => ?_
    refine .step reads_symbol fun _ _ => .pure fun z => ?_
    rw [Statement.bare, Statement.bare, hbt, hbv]
  unfold markedStatement
  refine .look reads_kind ?_
  rintro _ rfl
  rw [List.append_assoc, List.append_assoc]
  split
  · rename_i hq
    exact absurd hq (not_qualified_markedTarget ha ht _ _)
  · exact hread

/-! ## Statements of keywords and names -/

/-- Whether a token can begin an expression. -/
def startsExpression (k : Token.Kind) : Bool :=
  startsOperand k || isSymbol .minus k || isSymbol .plus k

theorem startsExpression_of_startsOperand {k : Token.Kind} (h : startsOperand k = true) :
    startsExpression k = true := by
  unfold startsExpression
  rw [h]
  rfl

theorem startsExpression_lexemes (e : Expression) (hw : e.isWellFormed = true) (rest : List Lexeme) :
    startsExpression (headKind (e.lexemes ++ rest)) = true := by
  cases e with
  | unary _ op _ => cases op <;> rfl
  | binary _ left op right =>
    rw [Expression.lexemes, List.append_assoc]
    unfold enclosedIf
    split
    · rfl
    · exact startsExpression_lexemes left (Bool.and_eq_true_iff.mp hw).1 _
  | _ =>
    obtain ⟨l, more, hl, hstart, _⟩ := beginsSelection _ hw
    rw [Expression.lexemesAt_of_le (by simp [Expression.level])] at hl
    rw [hl]
    exact startsExpression_of_startsOperand hstart

/-- An expression does not begin with the end of a statement, nor with what shows that a name stands before it. -/
theorem startsExpression_not {k : Token.Kind} (h : startsExpression k = true) :
    isSymbol .semicolon k = false ∧ followsName k = false := by
  cases k with
  | symbol y => cases y <;> first | exact ⟨rfl, rfl⟩ | cases h
  | _ => exact ⟨rfl, rfl⟩

theorem isName_name {w : String} (h : Lexeme.isName w = true) : isName (Lexeme.name w).kind = true :=
  (Bool.and_eq_true_iff.mp h).2

theorem reads_returnValue {x : Extent} {e : Expression} (hw : e.isWellFormed = true) :
    ReadsForm returnValue (e.lexemes ++ [.symbol .semicolon]) rest (.returnValue x (some e)) := by
  unfold returnValue
  have hstart := startsExpression_lexemes e hw ([.symbol .semicolon] ++ rest)
  refine .look (reads_eat_other ?_) ?_
  · rw [List.append_assoc]
    exact (startsExpression_not hstart).1
  · rintro _ rfl
    refine .bind (reads_closed hw (by simp) rest) fun v hv => ?_
    refine .step reads_symbol fun _ _ => .pure fun y => ?_
    rw [Statement.bare, Statement.bare, Option.map_some, Option.map_some, hv]

theorem reads_createInstance {x : Extent} {variableName : Option String} {className : String}
    (hv : variableName.all Lexeme.isName = true) (hc : Lexeme.isName className = true) :
    ReadsForm createInstance (.keyword .«instance» :: variableName.toList.map Lexeme.name ++
      [.keyword .of, .name className, .symbol .semicolon]) rest (.create x variableName className) := by
  unfold createInstance
  refine .step reads_keyword fun _ _ => ?_
  refine .look reads_kind ?_
  rintro _ rfl
  refine .look (reads_kindAt 1) ?_
  rintro _ rfl
  refine .look (reads_kindAt 2) ?_
  rintro _ rfl
  cases variableName with
  | none =>
    show Reads (do
      let result ← if true && isName (Lexeme.name className).kind && true then pure none else _
      _) _ _ _
    rw [isName_name hc]
    refine .look (.pure rfl) ?_
    rintro _ rfl
    refine .step reads_keyword fun _ _ => ?_
    refine .step (reads_name hc) ?_
    rintro _ rfl
    exact .step reads_symbol fun _ _ => .pure fun _ => rfl
  | some w =>
    -- the third token ahead is the name of the class here
    show Reads (do
      let result ← if _ && _ && isSymbol .semicolon (Lexeme.name className).kind then pure none else _
      _) _ _ _
    rw [isSymbol_name, Bool.and_false]
    refine .step (reads_someName hv) ?_
    rintro _ rfl
    refine .step reads_keyword fun _ _ => ?_
    refine .step (reads_name hc) ?_
    rintro _ rfl
    exact .step reads_symbol fun _ _ => .pure fun _ => rfl

theorem reads_relate {x : Extent} {source target : String} {r : Relationship} {link : Option String}
    (hs : Lexeme.isName source = true) (ht : Lexeme.isName target = true) (hr : r.isWellFormed = true)
    (hl : link.all Lexeme.isName = true) :
    ReadsForm relate (.name source :: .keyword .«to» :: .name target :: r.acrossLexemes link) rest
      (.relate x source target r link) := by
  unfold relate
  refine .step (reads_name hs) ?_
  rintro _ rfl
  refine .step reads_keyword fun _ _ => ?_
  refine .step (reads_name ht) ?_
  rintro _ rfl
  refine .last (reads_across hr hl) ?_
  rintro _ rfl
  exact .pure fun _ => rfl

theorem reads_unrelate {x : Extent} {source target : String} {r : Relationship} {link : Option String}
    (hs : Lexeme.isName source = true) (ht : Lexeme.isName target = true) (hr : r.isWellFormed = true)
    (hl : link.all Lexeme.isName = true) :
    ReadsForm unrelate (.name source :: .keyword .«from» :: .name target :: r.acrossLexemes link) rest
      (.unrelate x source target r link) := by
  unfold unrelate
  refine .step (reads_name hs) ?_
  rintro _ rfl
  refine .step reads_keyword fun _ _ => ?_
  refine .step (reads_name ht) ?_
  rintro _ rfl
  refine .last (reads_across hr hl) ?_
  rintro _ rfl
  exact .pure fun _ => rfl

theorem reads_selectFrom {x : Extent} {c : Cardinality} {result className : String} {filter : Option Expression}
    (hc : c ≠ .one) (hresult : Lexeme.isName result = true) (hclass : Lexeme.isName className = true)
    (hfilter : filter.all Expression.isWellFormed = true) :
    ReadsForm select (c.lexeme :: .name result :: .keyword .«from» :: .keyword .instances :: .keyword .of ::
      .name className :: Expression.conditionLexemes filter) rest (.selectFrom x c result className filter) := by
  unfold select
  refine .look reads_get fun first _ => ?_
  refine .step (reads_cardinality c) ?_
  rintro c rfl
  refine .step (reads_name hresult) ?_
  rintro _ rfl
  refine .step (reads_eat rfl) ?_
  rintro _ rfl
  rw [if_pos rfl, if_neg hc]
  refine .step reads_keyword fun _ _ => ?_
  refine .step reads_keyword fun _ _ => ?_
  refine .step (reads_name hclass) ?_
  rintro _ rfl
  refine reads_condition hfilter fun v hv => ?_
  refine .step reads_symbol fun _ _ => .pure fun _ => ?_
  rw [Statement.bare, Statement.bare, hv]

theorem reads_selectRelated {x : Extent} {c : Cardinality} {result : String} {start : NavigationStart}
    {chain : List NavigationStep} {filter : Option Expression} (hresult : Lexeme.isName result = true)
    (hstart : start.isWellFormed = true) (hne : chain ≠ [])
    (hchain : chain.all NavigationStep.isWellFormed = true) (hfilter : filter.all Expression.isWellFormed = true) :
    ReadsForm select (c.lexeme :: .name result :: .keyword .related :: .keyword .«by» :: start.lexeme ::
      chain.flatMap NavigationStep.lexemes ++ Expression.conditionLexemes filter) rest
      (.selectRelated x c result start chain filter) := by
  have harrow : isSymbol .arrow (headKind (Expression.conditionLexemes filter ++ rest)) = false := by
    cases filter <;> rfl
  unfold select
  refine .look reads_get fun first _ => ?_
  refine .step (reads_cardinality c) ?_
  rintro c rfl
  refine .step (reads_name hresult) ?_
  rintro _ rfl
  refine .look (reads_eat_other rfl) ?_
  rintro _ rfl
  refine .step reads_keyword fun _ _ => ?_
  refine .step reads_keyword fun _ _ => ?_
  refine .step (reads_navigationStart hstart) ?_
  rintro _ rfl
  refine .bind (reads_navigationChain hne hchain harrow) fun t ht => ?_
  refine reads_condition hfilter fun v hv => ?_
  refine .step reads_symbol fun _ _ => .pure fun _ => ?_
  rw [Statement.bare, Statement.bare, ht, hv]

theorem reads_create_object {x : Extent} {variableName : Option String} {className : String}
    (hv : variableName.all Lexeme.isName = true) (hc : Lexeme.isName className = true) :
    ReadsForm create (.keyword .object :: .keyword .«instance» :: variableName.toList.map Lexeme.name ++
      [.keyword .of, .name className, .symbol .semicolon]) rest (.create x variableName className) := by
  unfold create
  refine .step (reads_eat rfl) ?_
  rintro _ rfl
  exact reads_createInstance hv hc

theorem reads_create_event {x : Extent} {variableName : String} {event : EventSpec} {target : EventTarget}
    (hv : Lexeme.isName variableName = true) (he : event.isWellFormed = true) (ht : target.isWellFormed = true) :
    ReadsForm create (.keyword .event :: .keyword .«instance» :: .name variableName :: .keyword .of ::
      event.addressedLexemes target) rest (.createEvent x variableName event target) := by
  unfold create createEvent
  refine .look (reads_eat_other rfl) ?_
  rintro _ rfl
  refine .step reads_keyword fun _ _ => ?_
  refine .step reads_keyword fun _ _ => ?_
  refine .step (reads_name hv) ?_
  rintro _ rfl
  refine .step reads_keyword fun _ _ => ?_
  refine .last (reads_addressedEvent he ht) ?_
  rintro ⟨v, t⟩ ⟨hbv, hbt⟩
  refine .pure fun _ => ?_
  rw [Statement.bare, Statement.bare, hbv, hbt]

theorem reads_delete {x : Extent} {w : String} (h : Lexeme.isName w = true) :
    ReadsForm delete [.keyword .object, .keyword .«instance», .name w, .symbol .semicolon] rest (.delete x w) := by
  unfold delete
  refine .step reads_keyword fun _ _ => ?_
  refine .step reads_keyword fun _ _ => ?_
  refine .step (reads_name h) ?_
  rintro _ rfl
  exact .step reads_symbol fun _ _ => .pure fun _ => rfl

theorem reads_generateCreated {x : Extent} {w : String} (h : Lexeme.isName w = true) :
    ReadsForm generate [.name w, .symbol .semicolon] rest (.generateCreated x w) := by
  unfold generate
  refine .look reads_kind ?_
  rintro _ rfl
  refine .look (reads_kindAt 1) ?_
  rintro _ rfl
  rw [List.cons_append, headKind_cons, isName_name h]
  refine .step (reads_name h) ?_
  rintro _ rfl
  exact .step reads_symbol fun _ _ => .pure fun _ => rfl

theorem reads_generate {x : Extent} {event : EventSpec} {target : EventTarget} (he : event.isWellFormed = true)
    (ht : target.isWellFormed = true) :
    ReadsForm generate (event.addressedLexemes target) rest (.generate x event target) := by
  -- a meaning, arguments or `to` follow the label, so it is not the name of an event created before
  have hsecond : isSymbol .semicolon (headKind ((event.addressedLexemes target ++ rest).drop 1)) = false := by
    obtain ⟨label, meaning, args⟩ := event
    cases meaning with
    | some m => rfl
    | none => cases args <;> rfl
  unfold generate
  refine .look reads_kind ?_
  rintro _ rfl
  refine .look (reads_kindAt 1) ?_
  rintro _ rfl
  rw [hsecond, Bool.and_false]
  refine .last (reads_addressedEvent he ht) ?_
  rintro ⟨v, t⟩ ⟨hbv, hbt⟩
  refine .pure fun _ => ?_
  rw [Statement.bare, Statement.bare, hbv, hbt]

end Parser

end ObjectAction
