/-
Writing a body and reading it again gives the same body, up to extents. Blocks are read by `inner`,
which is assumed to read every statement of less than the given length; every statement in a block is
shorter than the one around it, so that the nesting never meets its bound. Every lexeme of a body is
read whole from its text, so that what holds of the lexemes holds of the text.
-/
import ObjectAction.Proofs.Body.Spelling
import ObjectAction.Proofs.Body.Statement

namespace ObjectAction

open Lexeme

namespace Parser

variable {rest : List Lexeme}

/-! ## How statements begin -/

/-- An expression that can have a marker either has none, or is the invocation that its marker is for. -/
theorem marker_cases {e : Expression} (h : e.isWellFormedOrMarked = true) :
    (e.marker = none ∧ e.isWellFormed = true) ∨
    ∃ (k : Keyword) (callee : String → Callee) (y : Extent) (owner w : String) (args : List Argument),
      e = .invoke y (callee owner) w args ∧ e.marker = some k ∧ startsOperand (.keyword k) = true ∧
      (∀ inner, keywordForm inner k = some (markedStatement callee)) ∧
      e.lexemes = .qualifier owner :: .name w :: .symbol .leftParen :: Argument.lexemes args ∧
      Lexeme.isName w = true ∧ Argument.areWellFormed args = true := by
  have hmarked : ∀ {owner w : String} {args : List Argument},
      (isWord owner && Lexeme.isName w && Argument.areWellFormed args) = true →
      Lexeme.isName w = true ∧ Argument.areWellFormed args = true := by
    intro owner w args h
    simp only [Bool.and_eq_true] at h
    exact ⟨h.1.2, h.2⟩
  cases e with
  | invoke y callee w args =>
    cases callee with
    | function | unmarked | receiver => exact .inl ⟨rfl, h⟩
    | bridge owner => exact .inr ⟨.bridge, .bridge, y, owner, w, args, rfl, rfl, rfl, fun _ => rfl, rfl, hmarked h⟩
    | ofClass owner =>
      exact .inr ⟨.transform, .ofClass, y, owner, w, args, rfl, rfl, rfl, fun _ => rfl, rfl, hmarked h⟩
    | port owner => exact .inr ⟨.send, .port, y, owner, w, args, rfl, rfl, rfl, fun _ => rfl, rfl, hmarked h⟩
  | _ => exact .inl ⟨rfl, h⟩

theorem length_invocation {e : Expression} (h : e.isInvocation = true) : e.lexemes.length ≠ 1 := by
  cases e with
  | invoke y callee w args => simp [Expression.lexemes]; omega
  | _ => cases h

/-- A statement begins as an operand could: no keyword of a statement is reserved. -/
theorem startsOperand_statement {s : Statement} (hw : s.isWellFormed = true) (rest : List Lexeme) :
    startsOperand (headKind (s.lexemes ++ rest)) = true := by
  have htarget : ∀ {e : Expression} (more : List Lexeme), e.isWellFormed = true → e.level = 6 →
      startsOperand (headKind (e.lexemes ++ more)) = true := by
    intro e more hw hlevel
    obtain ⟨l, ls, hl, hstart, _⟩ := beginsSelection e hw
    rw [Expression.lexemesAt_of_le (le_of_eq hlevel.symm)] at hl
    rw [hl]
    exact hstart
  cases s with
  | assign x target value =>
    simp only [Statement.isWellFormed, Bool.and_eq_true] at hw
    obtain ⟨⟨ha, ht⟩, hv⟩ := hw
    rw [Statement.lexemes, Expression.assignLexemes]
    rcases marker_cases hv with ⟨hm, _⟩ | ⟨k, _, _, _, _, _, _, hm, hk, _⟩ <;> rw [hm]
    · rw [List.append_assoc, List.append_assoc]
      exact htarget _ ht (level_of_isAssignable ha)
    · exact hk
  | invoke x e =>
    obtain ⟨hi, hw⟩ := Bool.and_eq_true_iff.mp hw
    rw [Statement.lexemes]
    rcases marker_cases hw with ⟨hm, he⟩ | ⟨k, _, _, _, _, _, _, hm, hk, _⟩ <;> rw [hm]
    · rw [List.append_assoc]
      exact htarget _ he (level_of_isInvocation hi)
    · exact hk
  | returnValue x value => cases value <;> rfl
  | branch x condition block elifs otherwise => cases otherwise <;> rfl
  | _ => rfl

/-- A statement of a keyword, which no sign of a name follows. -/
theorem reads_form_keyword {inner : Parser Statement} {k : Keyword} {p : Parser Form} {more : List Lexeme}
    {s : Statement} (hp : keywordForm inner k = some p) (hnext : followsName (headKind (more ++ rest)) = false)
    (h : ReadsForm p more rest s) : ReadsForm (form inner) (.keyword k :: more) rest s := by
  unfold form
  refine .look reads_kind ?_
  rintro _ rfl
  refine .look (reads_kindAt 1) ?_
  rintro _ rfl
  rw [List.cons_append, List.drop_succ_cons, List.drop_zero, hnext, Bool.and_false, hp]
  exact .step reads_advance fun _ _ => h

theorem followsName_name {w : String} (h : Lexeme.isName w = true) : followsName (Lexeme.name w).kind = false := by
  rcases name_kind h with hk | ⟨k, hk, _⟩ <;> rw [hk] <;> rfl

/-- A statement that begins with an expression. -/
theorem reads_form_expression {inner : Parser Statement} {l : Lexeme} {more : List Lexeme} {s : Statement}
    (hl : startsOperand l.kind = true) (hname : isName l.kind = true → followsName (headKind (more ++ rest)) = true)
    (h : ReadsForm expressionStatement (l :: more) rest s) : ReadsForm (form inner) (l :: more) rest s := by
  unfold form
  refine .look reads_kind ?_
  rintro _ rfl
  rw [List.cons_append, headKind_cons]
  cases hk : l.kind with
  | keyword k =>
    rw [hk] at hl hname
    refine .look (reads_kindAt 1) ?_
    rintro _ rfl
    rw [List.cons_append, List.drop_succ_cons, List.drop_zero]
    cases hr : k.isReserved with
    | false =>
      rw [hname (by simp [isName, hr])]
      exact h
    | true =>
      have hnone : keywordForm inner k = none := by
        cases k <;> first | rfl | exact absurd hr (by decide)
      rw [hnone]
      exact h
  | _ => exact h

/-- What is assigned to or invoked stands first; if it begins with a name, what follows shows that. -/
theorem reads_form_target {inner : Parser Statement} {e : Expression} {more : List Lexeme} {s : Statement}
    (hw : e.isWellFormed = true) (hlevel : e.level = 6)
    (hmore : followsName (headKind (more ++ rest)) = true ∨ e.lexemes.length ≠ 1)
    (h : ReadsForm expressionStatement (e.lexemes ++ more) rest s) :
    ReadsForm (form inner) (e.lexemes ++ more) rest s := by
  obtain ⟨l, ls, hl, hstart, _, hname⟩ := beginsSelection e hw
  rw [Expression.lexemesAt_of_le (le_of_eq hlevel.symm)] at hl
  rw [hl] at hmore h ⊢
  refine reads_form_expression hstart (fun hn => ?_) h
  cases ls with
  | nil => exact hmore.resolve_right (by simp)
  | cons l' ls =>
    show followsName l'.kind = true
    rcases (hname hn).resolve_left (by simp) with hk | hk <;> rw [headKind_cons] at hk <;> rw [hk] <;> rfl

/-! ## Blocks -/

/-- The parser reads every well-formed statement of at most `bound` lexemes. -/
def ReadsStatements (p : Parser Statement) (bound : Nat) : Prop :=
  ∀ s : Statement, s.isWellFormed = true → s.lexemes.length ≤ bound →
    ∀ rest, Reads p s.lexemes rest (·.bare = s.bare)

/-- The keywords that end the blocks of some statement. -/
def closingKeywords : List Keyword := [.elif, .«else», .endIf, .endFor, .endWhile]

/-- What ends a block: one of its terminators, or the end of input. -/
structure EndsBlock (terminators : List Keyword) (k : Token.Kind) : Prop where
  ends : endsBlock terminators k = true
  closing : terminators ⊆ closingKeywords

theorem closing_cases {t : Keyword} (h : t ∈ closingKeywords) :
    startsOperand (.keyword t) = false ∧ ∀ op : BinaryOperator, .keyword t ≠ op.lexeme.kind := by
  simp only [closingKeywords, List.mem_cons, List.not_mem_nil, or_false] at h
  refine ⟨?_, fun op hop => ?_⟩
  · rcases h with rfl | rfl | rfl | rfl | rfl <;> rfl
  · rcases h with rfl | rfl | rfl | rfl | rfl <;> cases op <;> cases hop

theorem EndsBlock.not_ends {terminators : List Keyword} {k k' : Token.Kind} (h : EndsBlock terminators k')
    (hk : startsOperand k = true) : endsBlock terminators k = false := by
  cases k with
  | keyword t =>
    cases ht : terminators.contains t with
    | false => exact ht
    | true =>
      rw [(closing_cases (h.closing (List.contains_iff_mem.mp ht))).1] at hk
      cases hk
  | endOfInput => cases hk
  | _ => rfl

section

variable {inner : Parser Statement} {bound : Nat}

theorem reads_statementsUpTo (h : ReadsStatements inner bound) {terminators : List Keyword}
    (hrest : EndsBlock terminators (headKind rest)) : ∀ (ss : List Statement), Statement.areWellFormed ss = true →
    (Statement.lexemesOfAll ss).length ≤ bound → ∀ m, (Statement.lexemesOfAll ss).length ≤ m →
    Reads (statementsUpTo inner terminators m) (Statement.lexemesOfAll ss) rest
      (fun r => Statement.bareAll r = Statement.bareAll ss)
  | [], _, _, 0, _ => .pure rfl
  | [], _, _, m + 1, _ => by
    unfold statementsUpTo
    refine .look reads_kind ?_
    rintro _ rfl
    rw [Statement.lexemesOfAll, List.nil_append, hrest.ends]
    exact .pure rfl
  | s :: ss, hw, hb, m, hm => by
    obtain ⟨hs, hss⟩ := Bool.and_eq_true_iff.mp hw
    rw [Statement.lexemesOfAll] at hb hm ⊢
    rw [List.length_append] at hb hm
    have hstart := startsOperand_statement hs (Statement.lexemesOfAll ss ++ rest)
    have hpos : s.lexemes.length ≠ 0 := by
      intro h0
      have hnil := startsOperand_statement hs []
      rw [List.eq_nil_of_length_eq_zero h0] at hnil
      cases hnil
    obtain ⟨m, rfl⟩ : ∃ m', m = m' + 1 := ⟨m - 1, by omega⟩
    have ih := reads_statementsUpTo h hrest ss hss (by omega) m (by omega)
    unfold statementsUpTo
    refine .look reads_kind ?_
    rintro _ rfl
    rw [List.append_assoc, hrest.not_ends hstart]
    refine .look (reads_eat_other ?_) ?_
    · rw [List.append_assoc]
      cases hk : headKind (s.lexemes ++ (Statement.lexemesOfAll ss ++ rest)) with
      | symbol y => rw [hk] at hstart; cases y <;> first | rfl | cases hstart
      | _ => rfl
    · rintro _ rfl
      refine .bind (h s hs (by omega) _) fun r hr => ?_
      refine .last ih fun rs hrs => .pure ?_
      rw [Statement.bareAll, Statement.bareAll, hr, hrs]

theorem reads_block (h : ReadsStatements inner bound) {terminators : List Keyword}
    (hrest : EndsBlock terminators (headKind rest)) {b : Block} (hw : b.isWellFormed = true)
    (hb : b.lexemes.length ≤ bound) :
    Reads (block inner terminators) b.lexemes rest (·.bare = b.bare) := by
  obtain ⟨x, ss⟩ := b
  unfold block
  refine .look reads_mark fun start _ => ?_
  refine .look reads_remaining ?_
  rintro _ rfl
  rw [Block.lexemes] at hb ⊢
  have hread := reads_statementsUpTo h hrest ss hw hb (Statement.lexemesOfAll ss ++ rest).length
    (by rw [List.length_append]; omega)
  refine .last hread fun r hr => ?_
  refine .look (reads_extentFrom start) fun y _ => .pure ?_
  rw [Block.bare, Block.bare, hr]

/-- After a condition in parentheses its block follows, or what ends an empty one. -/
theorem ends_block {terminators : List Keyword} (hrest : EndsBlock terminators (headKind rest)) {b : Block}
    (hw : b.isWellFormed = true) : Ends 0 (headKind (b.lexemes ++ rest)) := by
  have hstart : ∀ {k : Token.Kind}, startsOperand k = true → Ends 0 k := by
    intro k hk
    refine ⟨?_, ?_, fun op hop => ?_⟩
    · cases k with
      | symbol y => cases y <;> first | rfl | cases hk
      | _ => rfl
    · cases k with
      | symbol y => cases y <;> first | rfl | cases hk
      | _ => rfl
    · rw [hop] at hk
      cases op <;> cases hk
  obtain ⟨x, ss⟩ := b
  cases ss with
  | nil =>
    have hends := hrest.ends
    rw [Block.lexemes, Statement.lexemesOfAll, List.nil_append]
    cases hk : headKind rest with
    | keyword t =>
      rw [hk] at hends
      have hclosing := closing_cases (hrest.closing (List.contains_iff_mem.mp hends))
      exact ⟨rfl, rfl, fun op hop => absurd hop (hclosing.2 op)⟩
    | endOfInput => exact ⟨rfl, rfl, fun op hop => by cases op <;> cases hop⟩
    | _ => rw [hk] at hends; cases hends
  | cons s ss =>
    rw [Block.lexemes, Statement.lexemesOfAll, List.append_assoc]
    exact hstart (startsOperand_statement (Bool.and_eq_true_iff.mp hw).1 _)

/-- A condition in parentheses and the block after it. -/
theorem reads_guarded {α : Type} (h : ReadsStatements inner bound) {terminators : List Keyword} {more : List Lexeme}
    (hrest : EndsBlock terminators (headKind (more ++ rest))) {condition : Expression} {b : Block}
    (hc : condition.isWellFormed = true) (hw : b.isWellFormed = true) (hb : b.lexemes.length ≤ bound)
    {f : Expression → Block → Parser α} {Q : α → Prop}
    (hf : ∀ c b', c.bare = condition.bare → b'.bare = b.bare → Reads (f c b') more rest Q) :
    Reads (expression >>= fun test => block inner terminators >>= fun body => f test body)
      (enclosed condition.lexemes ++ b.lexemes ++ more) rest Q := by
  rw [List.append_assoc]
  refine .bind (reads_expression_enclosed hc ?_) fun c hbc => ?_
  · rw [List.append_assoc]
    exact ends_block hrest hw
  · exact .bind (reads_block h hrest hw hb) fun b' hbb => hf c b' hbc hbb

theorem reads_elifs (h : ReadsStatements inner bound)
    (hrest : EndsBlock branchEnds (headKind rest)) (helif : isKeyword .elif (headKind rest) = false) :
    ∀ (clauses : List Elif), Elif.areWellFormed clauses = true → (Elif.lexemes clauses).length ≤ bound →
    ∀ m, clauses.length ≤ m → Reads (elifs inner m) (Elif.lexemes clauses) rest
      (fun r => Elif.bareAll r = Elif.bareAll clauses)
  | [], _, _, 0, _ => .pure rfl
  | [], _, _, m + 1, _ => by
    unfold elifs
    refine .look reads_mark fun start _ => ?_
    refine .look (reads_eat_other helif) ?_
    rintro _ rfl
    exact .pure rfl
  | .mk x condition b :: clauses, hw, hb, m + 1, hm => by
    simp only [Elif.areWellFormed, Bool.and_eq_true] at hw
    obtain ⟨⟨hc, hblock⟩, hclauses⟩ := hw
    rw [Elif.lexemes] at hb ⊢
    simp only [List.length_append, List.length_cons] at hb
    have ih := reads_elifs h hrest helif clauses hclauses (by omega) m (Nat.le_of_succ_le_succ hm)
    have hends : EndsBlock branchEnds (headKind (Elif.lexemes clauses ++ rest)) := by
      cases clauses with
      | nil => exact hrest
      | cons clause clauses => exact ⟨by obtain ⟨_, _, _⟩ := clause; rfl, hrest.closing⟩
    unfold elifs
    refine .look reads_mark fun start _ => ?_
    refine .step (reads_eat rfl) ?_
    rintro _ rfl
    refine reads_guarded h hends hc hblock (by omega) fun c b' hbc hbb => ?_
    refine .look (reads_extentFrom start) fun y _ => ?_
    refine .last ih fun r hr => .pure ?_
    rw [Elif.bareAll, Elif.bareAll, hbc, hbb, hr]

/-! ## Statements with blocks -/

theorem reads_forEach (h : ReadsStatements inner bound) {x : Extent} {item set : String} {b : Block}
    (hi : Lexeme.isName item = true) (hs : Lexeme.isName set = true) (hw : b.isWellFormed = true)
    (hb : b.lexemes.length ≤ bound) :
    ReadsForm (forEach inner) (.keyword .each :: .name item :: .keyword .«in» :: .name set :: b.lexemes ++
      [.keyword .endFor, .symbol .semicolon]) rest (.forEach x item set b) := by
  unfold forEach
  refine .step reads_keyword fun _ _ => ?_
  refine .step (reads_name hi) ?_
  rintro _ rfl
  refine .step reads_keyword fun _ _ => ?_
  refine .step (reads_name hs) ?_
  rintro _ rfl
  refine .bind (reads_block h ⟨rfl, by decide⟩ hw hb) fun b' hbb => ?_
  refine .step reads_keyword fun _ _ => ?_
  refine .step reads_symbol fun _ _ => .pure fun _ => ?_
  rw [Statement.bare, Statement.bare, hbb]

theorem reads_whileLoop (h : ReadsStatements inner bound) {x : Extent} {condition : Expression} {b : Block}
    (hc : condition.isWellFormed = true) (hw : b.isWellFormed = true) (hb : b.lexemes.length ≤ bound) :
    ReadsForm (whileLoop inner) (enclosed condition.lexemes ++ b.lexemes ++
      [.keyword .endWhile, .symbol .semicolon]) rest (.whileLoop x condition b) := by
  unfold whileLoop
  refine reads_guarded h ⟨rfl, by decide⟩ hc hw hb fun c b' hbc hbb => ?_
  refine .step reads_keyword fun _ _ => ?_
  refine .step reads_symbol fun _ _ => .pure fun _ => ?_
  rw [Statement.bare, Statement.bare, hbc, hbb]

theorem length_le_elifs (clauses : List Elif) : clauses.length ≤ (Elif.lexemes clauses).length := by
  induction clauses with
  | nil => exact Nat.zero_le _
  | cons clause clauses ih =>
    obtain ⟨x, condition, b⟩ := clause
    simp only [Elif.lexemes, List.length_append, List.length_cons]
    omega

/-- The clauses of an `if` up to its `else` or its end. -/
theorem reads_branch_clauses {α : Type} (h : ReadsStatements inner bound) {more : List Lexeme} {k : Keyword}
    (hk : k = .«else» ∨ k = .endIf) {condition : Expression} {b : Block} {clauses : List Elif}
    (hc : condition.isWellFormed = true) (hw : b.isWellFormed = true) (hclauses : Elif.areWellFormed clauses = true)
    (hb : b.lexemes.length ≤ bound) (hbc : (Elif.lexemes clauses).length ≤ bound)
    {f : Expression → Block → List Elif → Parser α} {Q : α → Prop}
    (hf : ∀ c b' r, c.bare = condition.bare → b'.bare = b.bare → Elif.bareAll r = Elif.bareAll clauses →
      Reads (f c b' r) (.keyword k :: more) rest Q) :
    Reads (expression >>= fun test => block inner branchEnds >>= fun body => remaining >>= fun n =>
        elifs inner n >>= fun r => f test body r)
      (enclosed condition.lexemes ++ b.lexemes ++ (Elif.lexemes clauses ++ .keyword k :: more)) rest Q := by
  have hclosing : branchEnds ⊆ closingKeywords := by decide
  have hends : EndsBlock branchEnds (headKind (.keyword k :: more ++ rest)) := by
    rcases hk with rfl | rfl <;> exact ⟨rfl, hclosing⟩
  have hfirst : EndsBlock branchEnds (headKind (Elif.lexemes clauses ++ .keyword k :: more ++ rest)) := by
    cases clauses with
    | nil => exact hends
    | cons clause clauses => exact ⟨by obtain ⟨_, _, _⟩ := clause; rfl, hclosing⟩
  refine reads_guarded h hfirst hc hw hb fun c b' hcc hbb => ?_
  refine .look reads_remaining ?_
  rintro _ rfl
  have hlen := length_le_elifs clauses
  have helif : isKeyword .elif (headKind (.keyword k :: more ++ rest)) = false := by
    rcases hk with rfl | rfl <;> rfl
  refine .bind (reads_elifs h hends helif clauses hclauses hbc _
    (by simp only [List.length_append]; omega)) fun r hr => ?_
  exact hf c b' r hcc hbb hr

theorem reads_branch (h : ReadsStatements inner bound) {x : Extent} {condition : Expression} {b : Block}
    {clauses : List Elif} (hc : condition.isWellFormed = true) (hw : b.isWellFormed = true)
    (hclauses : Elif.areWellFormed clauses = true) (hb : b.lexemes.length ≤ bound)
    (hbc : (Elif.lexemes clauses).length ≤ bound) :
    ReadsForm (branch inner) (enclosed condition.lexemes ++ b.lexemes ++
      (Elif.lexemes clauses ++ [.keyword .endIf, .symbol .semicolon])) rest
      (.branch x condition b clauses none) := by
  unfold branch
  refine reads_branch_clauses h (.inr rfl) hc hw hclauses hb hbc fun c b' r hcc hbb hr => ?_
  refine .look (reads_eat_other rfl) ?_
  rintro _ rfl
  refine .look (.pure rfl) ?_
  rintro _ rfl
  refine .step reads_keyword fun _ _ => ?_
  refine .step reads_symbol fun _ _ => .pure fun _ => ?_
  rw [Statement.bare, Statement.bare, hcc, hbb, hr]

theorem reads_branch_else (h : ReadsStatements inner bound) {x : Extent} {condition : Expression} {b otherwise : Block}
    {clauses : List Elif} (hc : condition.isWellFormed = true) (hw : b.isWellFormed = true)
    (hclauses : Elif.areWellFormed clauses = true) (ho : otherwise.isWellFormed = true)
    (hb : b.lexemes.length ≤ bound) (hbc : (Elif.lexemes clauses).length ≤ bound)
    (hbo : otherwise.lexemes.length ≤ bound) :
    ReadsForm (branch inner) (enclosed condition.lexemes ++ b.lexemes ++ (Elif.lexemes clauses ++
      .keyword .«else» :: (otherwise.lexemes ++ [.keyword .endIf, .symbol .semicolon]))) rest
      (.branch x condition b clauses (some otherwise)) := by
  unfold branch
  refine reads_branch_clauses h (.inl rfl) hc hw hclauses hb hbc fun c b' r hcc hbb hr => ?_
  refine .step (reads_eat rfl) ?_
  rintro _ rfl
  have hread : Reads (some <$> block inner [.endIf]) otherwise.lexemes
      ([.keyword .endIf, .symbol .semicolon] ++ rest) (fun o => o.map Block.bare = some otherwise.bare) :=
    .map (reads_block h ⟨rfl, by decide⟩ ho hbo) fun o hbo => congrArg some hbo
  refine .bind hread fun o hbo => ?_
  refine .step reads_keyword fun _ _ => ?_
  refine .step reads_symbol fun _ _ => .pure fun _ => ?_
  cases o with
  | none => cases hbo
  | some o => rw [Statement.bare, Statement.bare, hcc, hbb, hr, Option.some.inj hbo]

/-! ## Whole statements -/

theorem followsName_markedTarget {target : Expression} (ha : target.isAssignable = true)
    (hw : target.isWellFormed = true) (rest : List Lexeme) :
    followsName (headKind (target.markedTargetLexemes ++ rest)) = false := by
  unfold Expression.markedTargetLexemes
  split
  · cases target with
    | var x w => exact followsName_name hw
    | field | index => rfl
    | _ => cases ha
  · exact (startsExpression_not (startsExpression_lexemes target hw rest)).2

/-- Every statement is read by the production that its first token chooses. -/
theorem reads_form (h : ReadsStatements inner bound) {s : Statement} (hw : s.isWellFormed = true)
    (hb : s.lexemes.length ≤ bound + 1) (rest : List Lexeme) : ReadsForm (form inner) s.lexemes rest s := by
  cases s with
  | breakLoop | continueLoop =>
    refine reads_form_keyword rfl rfl ?_
    exact .step reads_symbol fun _ _ => .pure fun _ => rfl
  | stop =>
    refine reads_form_keyword rfl rfl ?_
    refine .step reads_keyword fun _ _ => ?_
    exact .step reads_symbol fun _ _ => .pure fun _ => rfl
  | returnValue x value =>
    cases value with
    | none =>
      refine reads_form_keyword rfl rfl ?_
      refine .step (reads_eat rfl) ?_
      rintro _ rfl
      exact .pure fun _ => rfl
    | some e =>
      have hfollow : followsName (headKind (e.lexemes ++ [.symbol .semicolon] ++ rest)) = false := by
        rw [List.append_assoc]
        exact (startsExpression_not (startsExpression_lexemes e hw _)).2
      exact reads_form_keyword rfl hfollow (reads_returnValue hw)
  | assign x target value =>
    simp only [Statement.isWellFormed, Bool.and_eq_true] at hw
    obtain ⟨⟨ha, ht⟩, hv⟩ := hw
    rw [Statement.lexemes, Expression.assignLexemes]
    rcases marker_cases hv with ⟨hm, hwell⟩ | ⟨k, callee, y, owner, w, args, rfl, hm, _, hk, hlex, hname, hargs⟩
    · have hread : ReadsForm expressionStatement _ rest (.assign x target value) := reads_assign ha ht hwell
      rw [hm]
      rw [List.append_assoc] at hread ⊢
      exact reads_form_target ht (level_of_isAssignable ha) (.inl rfl) hread
    · have hfollow : followsName (headKind (target.markedTargetLexemes ++ .symbol .equal ::
          (.qualifier owner :: .name w :: .symbol .leftParen :: Argument.lexemes args) ++
          [.symbol .semicolon] ++ rest)) = false := by
        rw [List.append_assoc, List.append_assoc]
        exact followsName_markedTarget ha ht _
      rw [hm, hlex]
      exact reads_form_keyword (hk inner) hfollow (reads_markedAssign callee ha ht hname hargs)
  | invoke x e =>
    obtain ⟨hi, hwell⟩ := Bool.and_eq_true_iff.mp hw
    rw [Statement.lexemes]
    rcases marker_cases hwell with ⟨hm, he⟩ | ⟨k, callee, y, owner, w, args, rfl, hm, _, hk, hlex, hname, hargs⟩
    · rw [hm]
      exact reads_form_target he (level_of_isInvocation hi) (.inr (length_invocation hi)) (reads_invoke hi he)
    · rw [hm, hlex]
      exact reads_form_keyword (hk inner) rfl (reads_markedInvoke callee hname hargs)
  | create x w className =>
    obtain ⟨hv, hc⟩ := Bool.and_eq_true_iff.mp hw
    exact reads_form_keyword rfl rfl (reads_create_object hv hc)
  | delete x w => exact reads_form_keyword rfl rfl (reads_delete hw)
  | relate x source target r link =>
    simp only [Statement.isWellFormed, Bool.and_eq_true] at hw
    obtain ⟨⟨⟨hs, ht⟩, hr⟩, hl⟩ := hw
    exact reads_form_keyword rfl (followsName_name hs) (reads_relate hs ht hr hl)
  | unrelate x source target r link =>
    simp only [Statement.isWellFormed, Bool.and_eq_true] at hw
    obtain ⟨⟨⟨hs, ht⟩, hr⟩, hl⟩ := hw
    exact reads_form_keyword rfl (followsName_name hs) (reads_unrelate hs ht hr hl)
  | selectFrom x c result className filter =>
    simp only [Statement.isWellFormed, Bool.and_eq_true, decide_eq_true_eq] at hw
    obtain ⟨⟨⟨hc, hresult⟩, hclass⟩, hfilter⟩ := hw
    exact reads_form_keyword rfl (by cases c <;> rfl) (reads_selectFrom hc hresult hclass hfilter)
  | selectRelated x c result start chain filter =>
    simp only [Statement.isWellFormed, Bool.and_eq_true] at hw
    obtain ⟨⟨⟨⟨hresult, hstart⟩, hne⟩, hchain⟩, hfilter⟩ := hw
    have hcons : chain ≠ [] := by rintro rfl; cases hne
    exact reads_form_keyword rfl (by cases c <;> rfl) (reads_selectRelated hresult hstart hcons hchain hfilter)
  | forEach x item set b =>
    simp only [Statement.isWellFormed, Bool.and_eq_true] at hw
    obtain ⟨⟨hi, hs⟩, hblock⟩ := hw
    simp only [Statement.lexemes, List.length_append, List.length_cons] at hb
    exact reads_form_keyword rfl rfl (reads_forEach h hi hs hblock (by omega))
  | whileLoop x condition b =>
    obtain ⟨hc, hblock⟩ := Bool.and_eq_true_iff.mp hw
    simp only [Statement.lexemes, List.length_append, List.length_cons] at hb
    exact reads_form_keyword rfl rfl (reads_whileLoop h hc hblock (by omega))
  | branch x condition b clauses otherwise =>
    cases otherwise with
    | none =>
      simp only [Statement.isWellFormed, Bool.and_eq_true] at hw
      obtain ⟨⟨hc, hblock⟩, hclauses⟩ := hw
      simp only [Statement.lexemes, List.length_append, List.length_cons] at hb
      rw [Statement.lexemes, List.append_assoc]
      exact reads_form_keyword rfl rfl (reads_branch h hc hblock hclauses (by omega) (by omega))
    | some otherwise =>
      simp only [Statement.isWellFormed, Bool.and_eq_true] at hw
      obtain ⟨⟨⟨hc, hblock⟩, hclauses⟩, ho⟩ := hw
      simp only [Statement.lexemes, List.length_append, List.length_cons] at hb
      rw [Statement.lexemes, List.append_assoc, List.append_assoc]
      exact reads_form_keyword rfl rfl
        (reads_branch_else h hc hblock hclauses ho (by omega) (by omega) (by omega))
  | generate x event target =>
    obtain ⟨he, ht⟩ := Bool.and_eq_true_iff.mp hw
    have hlabel : Lexeme.isName event.label = true := by
      simp only [EventSpec.isWellFormed, Bool.and_eq_true] at he
      exact he.1.1
    exact reads_form_keyword rfl (followsName_name hlabel) (reads_generate he ht)
  | createEvent x w event target =>
    simp only [Statement.isWellFormed, Bool.and_eq_true] at hw
    obtain ⟨⟨hv, he⟩, ht⟩ := hw
    exact reads_form_keyword rfl rfl (reads_create_event hv he ht)
  | generateCreated x w => exact reads_form_keyword rfl (followsName_name hw) (reads_generateCreated hw)

/-- From the statements in the blocks of a statement to the whole of it. -/
theorem reads_statement (h : ReadsStatements inner bound) : ReadsStatements (statement inner) (bound + 1) := by
  intro s hw hb rest
  unfold statement
  refine .look reads_mark fun start _ => ?_
  refine .last (reads_form h hw hb rest) fun build hbuild => ?_
  exact .look (reads_extentFrom start) fun x _ => .pure (hbuild x)

/-- The bound on the nesting is never met, since every statement takes a lexeme. -/
theorem reads_statementWithin : ∀ n, ReadsStatements (statementWithin n) n
  | 0 => by
    intro s hw hb
    have hnil := startsOperand_statement hw []
    rw [List.eq_nil_of_length_eq_zero (Nat.le_zero.mp hb)] at hnil
    cases hnil
  | n + 1 => reads_statement (reads_statementWithin n)

/-- Every well-formed body is read back. -/
theorem reads_body {b : Body} (hw : b.isWellFormed = true) : Reads body b.block.lexemes [] (·.bare = b.bare) := by
  unfold body
  refine .look reads_remaining ?_
  rintro _ rfl
  have hends : EndsBlock [] (headKind []) := ⟨rfl, List.nil_subset _⟩
  have hread := reads_block (reads_statementWithin ((b.block.lexemes ++ []).length + 1)) hends hw (by simp)
  refine .last hread fun v hv => .pure ?_
  rw [Body.bare, Body.bare, hv]

end

end Parser

/-! ## Texts of bodies -/

/-- The tokens of lexemes that are read whole show these lexemes. -/
theorem shows_join {ls : List Lexeme} (h : AllWhole ls) :
    (Stream.ofTokens (Lexeme.join ls ++ "\n").toList (tokenize (Lexeme.join ls ++ "\n")).tokens).Shows ls := by
  have htokens := tokens_join ls h
  unfold Stream.ofTokens Stream.Shows
  constructor
  · rw [List.map_dropLast, htokens, List.dropLast_concat]
  · have hlast : ((tokenize (Lexeme.join ls ++ "\n")).tokens.map Token.bare).getLast? = some ⟨.endOfInput, ""⟩ := by
      rw [htokens, List.getLast?_concat]
    rw [List.getLast?_map] at hlast
    obtain ⟨t, ht, hbare⟩ := Option.map_eq_some_iff.mp hlast
    rw [ht]
    exact congrArg Lexeme.kind hbare

/-- Writing a well-formed body and parsing the text gives the body again, up to extents. -/
theorem parse_write (b : Body) (hw : b.isWellFormed = true) : (parse b.write).map Body.bare = .ok b.bare := by
  have hshows := shows_join (b.block.allWhole hw)
  rw [← List.append_nil b.block.lexemes] at hshows
  obtain ⟨v, s, hrun, hv, _⟩ := Parser.reads_body hw _ hshows
  rw [List.append_nil] at hrun
  show ((Prod.fst <$> Parser.body _).map Body.bare : Except SyntaxError Body) = _
  unfold Body.write
  rw [hrun]
  exact congrArg Except.ok hv

/-- A body with keywords as names, a sign after a prefix keyword, operators that have to be grouped, and a
target that begins with a qualifier. -/
def groupedBody : Body :=
  ⟨.nowhere, .mk .nowhere [
    .whileLoop .nowhere (.binary .nowhere (.var .nowhere "Empty") .less
        (.unary .nowhere .cardinality (.unary .nowhere .minus (.integer .nowhere 3))))
      (.mk .nowhere [.returnValue .nowhere (some (.binary .nowhere (.var .nowhere "a") .sub
        (.binary .nowhere (.var .nowhere "b") .sub (.var .nowhere "c"))))]),
    .assign .nowhere (.field .nowhere (.enumerator .nowhere "A" "x") "y") (.invoke .nowhere (.bridge "B") "g" [])]⟩

theorem parse_write_groupedBody :
    groupedBody.isWellFormed = true ∧ (parse groupedBody.write).map Body.bare = .ok groupedBody.bare :=
  ⟨by decide, parse_write groupedBody (by decide)⟩

/-! ## Why targets of marked assignments need parentheses -/

namespace Parser

variable {α β : Type}

/-- The parser fails on every stream that shows these lexemes. -/
def Fails (p : Parser α) (ls : List Lexeme) : Prop :=
  ∀ s : Stream, s.Shows ls → ∃ e, p s = .error e

theorem Fails.bind {p : Parser α} {f : α → Parser β} {ls : List Lexeme} (h : Fails p ls) : Fails (p >>= f) ls := by
  intro s hs
  obtain ⟨e, he⟩ := h s hs
  refine ⟨e, ?_⟩
  show (p s >>= fun x => f x.1 x.2) = _
  rw [he]
  rfl

theorem Fails.after {p : Parser α} {f : α → Parser β} {taken rest : List Lexeme} {P : α → Prop}
    (hp : Reads p taken rest P) (hf : ∀ a, P a → Fails (f a) rest) : Fails (p >>= f) (taken ++ rest) := by
  intro s hs
  obtain ⟨a, s', h₁, ha, hs'⟩ := hp s hs
  obtain ⟨e, he⟩ := hf a ha s' hs'
  refine ⟨e, ?_⟩
  show (p s >>= fun x => f x.1 x.2) = _
  rw [h₁]
  exact he

theorem Fails.look {p : Parser α} {f : α → Parser β} {ls : List Lexeme} {P : α → Prop}
    (hp : Reads p [] ls P) (hf : ∀ a, P a → Fails (f a) ls) : Fails (p >>= f) ls :=
  after hp hf

theorem Fails.step {p : Parser α} {f : α → Parser β} {l : Lexeme} {rest : List Lexeme} {P : α → Prop}
    (hp : Reads p [l] rest P) (hf : ∀ a, P a → Fails (f a) rest) : Fails (p >>= f) (l :: rest) :=
  after hp hf

theorem fails_expect {p : Token.Kind → Bool} {expected : String} {ls : List Lexeme}
    (h : p (headKind ls) = false) : Fails (expect p expected) ls := by
  refine .look (reads_eat_other h) ?_
  rintro _ rfl s _
  exact ⟨_, rfl⟩

/-- After a marker a qualifier begins an invocation, so that arguments have to follow its name. -/
theorem fails_markedStatement (callee : String → Callee) {owner w : String} (hw : Lexeme.isName w = true)
    {more : List Lexeme} (hmore : isSymbol .leftParen (headKind more) = false) :
    Fails (markedStatement callee) (.qualifier owner :: .name w :: more) := by
  have harguments : Fails (arguments expression) more := (fails_expect hmore).bind
  unfold markedStatement
  refine .look reads_kind ?_
  rintro _ rfl
  refine .bind ?_
  unfold markedInvocation
  refine .look reads_mark fun start _ => ?_
  refine .look reads_kind ?_
  rintro _ rfl
  refine .step reads_advance fun _ _ => ?_
  refine .step (reads_name hw) fun _ _ => ?_
  exact harguments.bind

/-- A body that begins with such a statement fails with it. -/
theorem fails_body {k : Keyword} {callee : String → Callee}
    (hk : ∀ inner, keywordForm inner k = some (markedStatement callee)) {owner w : String}
    (hw : Lexeme.isName w = true) {more : List Lexeme} (hmore : isSymbol .leftParen (headKind more) = false) :
    Fails body (.keyword k :: .qualifier owner :: .name w :: more) := by
  have hform : ∀ inner, Fails (form inner) (.keyword k :: .qualifier owner :: .name w :: more) := by
    intro inner
    unfold form
    refine .look reads_kind ?_
    rintro _ rfl
    refine .look (reads_kindAt 1) ?_
    rintro _ rfl
    have hnext : followsName (headKind (List.drop 1 (.keyword k :: .qualifier owner :: .name w :: more))) = false :=
      rfl
    rw [hnext, Bool.and_false, hk inner]
    exact .step reads_advance fun _ _ => fails_markedStatement callee hw hmore
  unfold body
  refine .look reads_remaining fun n _ => ?_
  refine .bind ?_
  unfold block
  refine .look reads_mark fun start _ => ?_
  refine .look reads_remaining ?_
  rintro _ rfl
  refine .bind ?_
  unfold statementsUpTo
  refine .look reads_kind ?_
  rintro _ rfl
  refine .look (reads_eat_other rfl) ?_
  rintro _ rfl
  refine .bind ?_
  unfold statementWithin statement
  exact .look reads_mark fun start _ => (hform _).bind

end Parser

/-- An assignment with no parentheses but those that the levels ask for. -/
def Expression.plainAssignLexemes (target value : Expression) : List Lexeme :=
  value.marker.toList.map .keyword ++ target.lexemes ++ .symbol .equal :: value.lexemes ++ [.symbol .semicolon]

/-- A target that begins with a qualifier: `A::x.y`. -/
def qualifiedTarget : Expression := .field .nowhere (.enumerator .nowhere "A" "x") "y"

/-- A value with a marker: `bridge B::g()`. -/
def bridgedValue : Expression := .invoke .nowhere (.bridge "B") "g" []

/-- Without parentheses around what it selects from, a target that begins with a qualifier is not read back
after a marker, although its statement is well-formed. -/
theorem parse_plain_qualifiedTarget :
    (Statement.assign .nowhere qualifiedTarget bridgedValue).isWellFormed = true ∧
      ∃ e, parse (Lexeme.join (qualifiedTarget.plainAssignLexemes bridgedValue)) = .error e := by
  refine ⟨by decide, ?_⟩
  have hname : isName "x" = true := by decide
  have hwhole : AllWhole (qualifiedTarget.plainAssignLexemes bridgedValue) := by
    have htarget := qualifiedTarget.allWhole (by decide)
    obtain ⟨hvalue, hmarker⟩ := Expression.markedWhole (show bridgedValue.isWellFormedOrMarked = true by decide)
    exact ((hmarker.append htarget).append (.symbol hvalue)).append (.symbol .nil)
  obtain ⟨e, he⟩ := Parser.fails_body (fun _ => rfl) hname rfl _ (shows_join hwhole)
  exact ⟨e, congrArg (fun r : Except SyntaxError (Body × Stream) => Prod.fst <$> r) he⟩

end ObjectAction
