/-
A text that stands inside a longer one. What is read from it has every place moved by as many bytes and lines as
come before it; columns stay, as what comes before ends a line.

`Runs F n closes p p' R` compares two parsers, one on the tokens of the text and one on those of the longer text: if
the first one succeeds, so does the second one, with a result related by `R`. This is so as long as no parser looks
behind the tokens of the text. A semicolon that is still ahead shows that none did, and a parser that `closes` takes
one itself.
-/
import ObjectAction.Body.StatementParser
import ObjectAction.Proofs.Body.Placement

namespace ObjectAction

open Text (Mark)

/-! ## Places -/

namespace Text

/-- By how many bytes and lines a place moves; its column stays. -/
structure Shift where
  bytes : Nat
  lines : Nat
  deriving DecidableEq, Repr

/-- How far whole lines move what comes behind them. -/
def Shift.behind (before : List Char) : Shift := ⟨(String.ofList before).utf8ByteSize, before.count '\n'⟩

def Mark.moved (d : Shift) (m : Mark) : Mark := ⟨m.offset + d.bytes, m.line + d.lines, m.column⟩

theorem Mark.moved_past (d : Shift) (m : Mark) (cs : List Char) : (m.moved d).past cs = (m.past cs).moved d := by
  induction cs generalizing m with
  | nil => rfl
  | cons c cs ih =>
    have hafter : (m.moved d).after c = (m.after c).moved d := by
      unfold Mark.after
      split
      · simp only [Mark.moved, Mark.mk.injEq, and_true]
        omega
      · simp only [Mark.moved, Mark.mk.injEq, and_true]
        omega
    rw [Mark.past_cons, Mark.past_cons, hafter, ih]

/-- A place of a text, seen from the start of whole lines before it. -/
theorem Mark.behind_append {before : List Char} (h : (Mark.behind before).column = 0) (inside : List Char) :
    Mark.behind (before ++ inside) = (Mark.behind inside).moved (.behind before) := by
  have hstart : Mark.behind before = Mark.start.moved (.behind before) := by
    unfold Mark.behind at h ⊢
    dsimp only at h
    rw [h]
    simp [Mark.start, Mark.moved, Shift.behind, Nat.add_comm]
  rw [← Mark.start_past, Mark.past_append, Mark.start_past, hstart, Mark.moved_past, Mark.start_past]

end Text

open Text (Shift)

/-! ## Trees -/

def Token.moved (d : Shift) (t : Token) : Token := ⟨t.kind, t.lexeme, t.start.moved d, t.stop.moved d⟩

def Extent.moved (d : Shift) (x : Extent) : Extent := ⟨x.start.moved d, x.stop.moved d, x.text⟩

mutual

def Expression.moved (d : Shift) : Expression → Expression
  | .integer x n => .integer (x.moved d) n
  | .real x r => .real (x.moved d) r
  | .string x content => .string (x.moved d) content
  | .boolean x b => .boolean (x.moved d) b
  | .enumerator x enumeration name => .enumerator (x.moved d) enumeration name
  | .self x => .self (x.moved d)
  | .selected x => .selected (x.moved d)
  | .parameter x name ofEvent => .parameter (x.moved d) name ofEvent
  | .var x name => .var (x.moved d) name
  | .field x target name => .field (x.moved d) (target.moved d) name
  | .index x target position => .index (x.moved d) (target.moved d) (position.moved d)
  | .unary x op operand => .unary (x.moved d) op (operand.moved d)
  | .binary x left op right => .binary (x.moved d) (left.moved d) op (right.moved d)
  | .invoke x callee name arguments => .invoke (x.moved d) (callee.moved d) name (Argument.allMoved d arguments)

def Callee.moved (d : Shift) : Callee → Callee
  | .receiver target => .receiver (target.moved d)
  | callee => callee

def Argument.allMoved (d : Shift) : List Argument → List Argument
  | [] => []
  | .mk x name value :: rest => .mk (x.moved d) name (value.moved d) :: Argument.allMoved d rest

end

def NavigationStep.moved (d : Shift) (s : NavigationStep) : NavigationStep := { s with extent := s.extent.moved d }

def EventSpec.moved (d : Shift) (e : EventSpec) : EventSpec := { e with arguments := Argument.allMoved d e.arguments }

def EventTarget.moved (d : Shift) : EventTarget → EventTarget
  | receiver target => receiver (target.moved d)
  | target => target

mutual

def Statement.moved (d : Shift) : Statement → Statement
  | .breakLoop x => .breakLoop (x.moved d)
  | .continueLoop x => .continueLoop (x.moved d)
  | .stop x => .stop (x.moved d)
  | .returnValue x value => .returnValue (x.moved d) (value.map (Expression.moved d))
  | .assign x target value => .assign (x.moved d) (target.moved d) (value.moved d)
  | .invoke x invocation => .invoke (x.moved d) (invocation.moved d)
  | .create x name className => .create (x.moved d) name className
  | .delete x name => .delete (x.moved d) name
  | .relate x source target relationship link => .relate (x.moved d) source target relationship link
  | .unrelate x source target relationship link => .unrelate (x.moved d) source target relationship link
  | .selectFrom x cardinality name className condition =>
    .selectFrom (x.moved d) cardinality name className (condition.map (Expression.moved d))
  | .selectRelated x cardinality name start chain condition =>
    .selectRelated (x.moved d) cardinality name start (chain.map (NavigationStep.moved d))
      (condition.map (Expression.moved d))
  | .forEach x item set block => .forEach (x.moved d) item set (block.moved d)
  | .whileLoop x condition block => .whileLoop (x.moved d) (condition.moved d) (block.moved d)
  | .branch x condition block elifs none =>
    .branch (x.moved d) (condition.moved d) (block.moved d) (Elif.allMoved d elifs) none
  | .branch x condition block elifs (some otherwise) =>
    .branch (x.moved d) (condition.moved d) (block.moved d) (Elif.allMoved d elifs) (some (otherwise.moved d))
  | .generate x event target => .generate (x.moved d) (event.moved d) (target.moved d)
  | .createEvent x name event target => .createEvent (x.moved d) name (event.moved d) (target.moved d)
  | .generateCreated x name => .generateCreated (x.moved d) name

def Block.moved (d : Shift) : Block → Block
  | .mk x statements => .mk (x.moved d) (Statement.allMoved d statements)

def Statement.allMoved (d : Shift) : List Statement → List Statement
  | [] => []
  | s :: rest => s.moved d :: Statement.allMoved d rest

def Elif.allMoved (d : Shift) : List Elif → List Elif
  | [] => []
  | .mk x condition block :: rest => .mk (x.moved d) (condition.moved d) (block.moved d) :: Elif.allMoved d rest

end

theorem Statement.allMoved_eq_map (d : Shift) (statements : List Statement) :
    Statement.allMoved d statements = statements.map (Statement.moved d) := by
  induction statements with
  | nil => rfl
  | cons s rest ih => rw [Statement.allMoved, ih, List.map_cons]

@[simp] theorem Expression.isAssignable_moved (d : Shift) (e : Expression) :
    (e.moved d).isAssignable = e.isAssignable := by
  cases e <;> rfl

@[simp] theorem Expression.isInvocation_moved (d : Shift) (e : Expression) :
    (e.moved d).isInvocation = e.isInvocation := by
  cases e <;> rfl

/-! ### No shift -/

@[simp] theorem Extent.moved_zero (x : Extent) : x.moved ⟨0, 0⟩ = x := rfl

mutual

@[simp] theorem Expression.moved_zero : ∀ e : Expression, e.moved ⟨0, 0⟩ = e
  | .integer _ _ | .real _ _ | .string _ _ | .boolean _ _ | .enumerator _ _ _ | .self _ | .selected _
  | .parameter _ _ _ | .var _ _ => rfl
  | .field x target name => by rw [Expression.moved, target.moved_zero, x.moved_zero]
  | .index x target position => by rw [Expression.moved, target.moved_zero, position.moved_zero, x.moved_zero]
  | .unary x op operand => by rw [Expression.moved, operand.moved_zero, x.moved_zero]
  | .binary x left op right => by rw [Expression.moved, left.moved_zero, right.moved_zero, x.moved_zero]
  | .invoke x callee name arguments => by
    rw [Expression.moved, callee.moved_zero, Argument.allMoved_zero arguments, x.moved_zero]

@[simp] theorem Callee.moved_zero : ∀ c : Callee, c.moved ⟨0, 0⟩ = c
  | .receiver target => by rw [Callee.moved, target.moved_zero]
  | .function | .unmarked _ | .bridge _ | .ofClass _ | .port _ => rfl

@[simp] theorem Argument.allMoved_zero : ∀ args : List Argument, Argument.allMoved ⟨0, 0⟩ args = args
  | [] => rfl
  | .mk x name value :: rest => by
    rw [Argument.allMoved, value.moved_zero, Argument.allMoved_zero rest, x.moved_zero]

end

theorem Expression.map_moved_zero (e : Option Expression) : e.map (Expression.moved ⟨0, 0⟩) = e := by
  cases e <;> simp

theorem EventSpec.moved_zero (e : EventSpec) : e.moved ⟨0, 0⟩ = e := by
  simp [EventSpec.moved]

theorem EventTarget.moved_zero (t : EventTarget) : t.moved ⟨0, 0⟩ = t := by
  cases t <;> simp [EventTarget.moved]

theorem NavigationStep.map_moved_zero (chain : List NavigationStep) :
    chain.map (NavigationStep.moved ⟨0, 0⟩) = chain :=
  List.map_id chain

mutual

theorem Statement.moved_zero : ∀ s : Statement, s.moved ⟨0, 0⟩ = s
  | .breakLoop _ | .continueLoop _ | .stop _ | .create _ _ _ | .delete _ _ | .relate _ _ _ _ _
  | .unrelate _ _ _ _ _ | .generateCreated _ _ => rfl
  | .returnValue x value => by rw [Statement.moved, Expression.map_moved_zero, x.moved_zero]
  | .assign x target value => by rw [Statement.moved, target.moved_zero, value.moved_zero, x.moved_zero]
  | .invoke x invocation => by rw [Statement.moved, invocation.moved_zero, x.moved_zero]
  | .selectFrom x _ _ _ condition => by rw [Statement.moved, Expression.map_moved_zero, x.moved_zero]
  | .selectRelated x _ _ _ chain condition => by
    rw [Statement.moved, NavigationStep.map_moved_zero, Expression.map_moved_zero, x.moved_zero]
  | .forEach x _ _ block => by rw [Statement.moved, block.moved_zero, x.moved_zero]
  | .whileLoop x condition block => by rw [Statement.moved, condition.moved_zero, block.moved_zero, x.moved_zero]
  | .branch x condition block elifs none => by
    rw [Statement.moved, condition.moved_zero, block.moved_zero, Elif.allMoved_zero elifs, x.moved_zero]
  | .branch x condition block elifs (some otherwise) => by
    rw [Statement.moved, condition.moved_zero, block.moved_zero, Elif.allMoved_zero elifs, otherwise.moved_zero,
      x.moved_zero]
  | .generate x event target => by rw [Statement.moved, event.moved_zero, target.moved_zero, x.moved_zero]
  | .createEvent x _ event target => by rw [Statement.moved, event.moved_zero, target.moved_zero, x.moved_zero]

theorem Block.moved_zero : ∀ b : Block, b.moved ⟨0, 0⟩ = b
  | .mk x statements => by rw [Block.moved, Statement.allMoved_zero statements, x.moved_zero]

theorem Statement.allMoved_zero : ∀ statements : List Statement, Statement.allMoved ⟨0, 0⟩ statements = statements
  | [] => rfl
  | s :: rest => by rw [Statement.allMoved, s.moved_zero, Statement.allMoved_zero rest]

theorem Elif.allMoved_zero : ∀ elifs : List Elif, Elif.allMoved ⟨0, 0⟩ elifs = elifs
  | [] => rfl
  | .mk x condition block :: rest => by
    rw [Elif.allMoved, condition.moved_zero, block.moved_zero, Elif.allMoved_zero rest, x.moved_zero]

end

/-! ## Streams -/

/-- A text between two others, and the tokens that come behind its own ones. -/
structure Frame where
  before : List Char
  inside : List Char
  after : List Char
  following : List Token
  /-- What comes before is made of whole lines. -/
  lines : (Mark.behind before).column = 0

namespace Frame

/-- How far the text stands behind the start. -/
def shift (F : Frame) : Shift := .behind F.before

def whole (F : Frame) : List Char := F.before ++ F.inside ++ F.after

end Frame

namespace Stream

theorem Genuine.tail {s : Stream} (hs : s.Genuine) : s.tail.Genuine := by
  obtain ⟨source, previous, tokens, final⟩ := s
  cases tokens with
  | nil => exact hs
  | cons t rest =>
    refine ⟨hs.final, fun u hu => hs.inner u (List.mem_cons_of_mem t hu), fun u hu => ?_⟩
    exact hs.lexeme u (List.mem_cons_of_mem t hu)

theorem tokens_tail (s : Stream) : s.tail.tokens = s.tokens.tail := by
  obtain ⟨source, previous, tokens, final⟩ := s
  cases tokens <;> rfl

theorem kindAt_zero (s : Stream) : s.kindAt 0 = s.current.kind := by
  unfold kindAt current
  rw [List.head?_eq_getElem?]

theorem suffix_tail (s : Stream) : s.tail.tokens <:+ s.tokens := by
  rw [s.tokens_tail]
  exact List.tail_suffix _

/-- The stream reads the text of the frame. -/
structure ReadsInside (F : Frame) (s : Stream) : Prop where
  placed : s.Placed
  genuine : s.Genuine
  source : s.source = F.inside

variable {F : Frame} {s t : Stream}

theorem ReadsInside.tail (hs : s.ReadsInside F) : s.tail.ReadsInside F :=
  ⟨hs.placed.tail.1, hs.genuine.tail, hs.placed.tail.2.source.trans hs.source⟩

theorem ReadsInside.tokens_ne_nil (hs : s.ReadsInside F) (h : s.current.kind ≠ .endOfInput) : s.tokens ≠ [] := by
  intro hnil
  apply h
  unfold current
  rw [hnil]
  exact hs.genuine.final

/-- The stream `t` reads the whole text of the frame, where `s` reads the text inside. -/
structure Carries (F : Frame) (s t : Stream) : Prop where
  tokens : t.tokens = s.tokens.map (Token.moved F.shift) ++ F.following
  source : t.source = F.whole
  final : t.final.kind = .endOfInput
  /-- Before its first token is taken, `previous` is no place of the text inside. -/
  previous : t.previous = s.previous.moved F.shift ∨ (s.previous.offset = 0 ∧ t.previous.offset ≤ F.shift.bytes)

theorem Carries.current (h : s.Carries F t) (hne : s.tokens ≠ []) : t.current = s.current.moved F.shift := by
  obtain ⟨u, rest, htokens⟩ := List.exists_cons_of_ne_nil hne
  unfold Stream.current
  rw [h.tokens, htokens]
  rfl

theorem Carries.kind (h : s.Carries F t) (hne : s.tokens ≠ []) : t.current.kind = s.current.kind := by
  rw [h.current hne]
  rfl

theorem Carries.length_tokens (h : s.Carries F t) : t.tokens.length = s.tokens.length + F.following.length := by
  rw [h.tokens, List.length_append, List.length_map]

theorem Carries.kindAt (h : s.Carries F t) {n : Nat} (hn : n < s.tokens.length) : t.kindAt n = s.kindAt n := by
  unfold Stream.kindAt
  rw [h.tokens, List.getElem?_append_left (by simpa using hn), List.getElem?_map, List.getElem?_eq_getElem hn]
  rfl

theorem Carries.tail (h : s.Carries F t) (hne : s.tokens ≠ []) : s.tail.Carries F t.tail := by
  obtain ⟨u, rest, htokens⟩ := List.exists_cons_of_ne_nil hne
  have ht : t.tokens = u.moved F.shift :: (rest.map (Token.moved F.shift) ++ F.following) := by
    rw [h.tokens, htokens]
    rfl
  unfold Stream.tail
  rw [htokens, ht]
  exact ⟨rfl, h.source, h.final, .inl rfl⟩

/-- An extent in the text inside is the same in the whole text, but for the places. -/
theorem Carries.extentFrom (h : s.Carries F t) (hs : s.ReadsInside F) {start : Mark} (hstart : start.In F.inside) :
    t.extentFrom (start.moved F.shift) = (s.extentFrom start).moved F.shift := by
  have hlt : (start.moved F.shift).offset < t.previous.offset ↔ start.offset < s.previous.offset := by
    show start.offset + F.shift.bytes < _ ↔ _
    rcases h.previous with hprevious | ⟨hzero, hle⟩
    · rw [hprevious]
      show _ < s.previous.offset + F.shift.bytes ↔ _
      omega
    · omega
  -- both extents are empty, or none is
  unfold Stream.extentFrom
  by_cases htaken : start.offset < s.previous.offset
  · rw [if_pos (hlt.mpr htaken), if_pos htaken]
    have hprevious : t.previous = s.previous.moved F.shift := h.previous.resolve_right fun hnone => by omega
    have hin : s.previous.In F.inside := hs.source ▸ hs.placed.previous.resolve_left (by omega)
    obtain ⟨before, inside, after, hinside, hbefore, hbehind⟩ := hstart.between hin (le_of_lt htaken)
    -- what stands between the places is the same, with more text before it and behind it
    have htext : Text.slice t.source (start.moved F.shift).offset t.previous.offset =
        Text.slice s.source start.offset s.previous.offset := by
      have hwhole : F.whole = F.before ++ before ++ inside ++ (after ++ F.after) := by
        simp [Frame.whole, hinside]
      rw [h.source, hs.source, hprevious, hwhole, hinside, hbefore, hbehind, Text.slice_behind, Frame.shift,
        ← Mark.behind_append F.lines, ← Mark.behind_append F.lines, ← List.append_assoc F.before before inside,
        Text.slice_behind]
    rw [htext, hprevious]
    rfl
  · rw [if_neg fun hmoved => htaken (hlt.mp hmoved), if_neg htaken]
    rfl

/-- A semicolon is ahead. -/
def SemicolonAhead (s : Stream) : Prop := ∃ u ∈ s.tokens, u.kind = .symbol .semicolon

theorem SemicolonAhead.of_suffix {s' : Stream} (h : s'.SemicolonAhead) (hsuffix : s'.tokens <:+ s.tokens) :
    s.SemicolonAhead := by
  obtain ⟨u, hu, hkind⟩ := h
  exact ⟨u, hsuffix.subset hu, hkind⟩

theorem SemicolonAhead.tokens_ne_nil (h : s.SemicolonAhead) : s.tokens ≠ [] := by
  obtain ⟨u, hu, -⟩ := h
  exact List.ne_nil_of_mem hu

/-- Tokens that are no semicolon have a token behind them. -/
theorem SemicolonAhead.lt_length (h : s.SemicolonAhead) {n : Nat} (hn : ∀ i < n, s.kindAt i ≠ .symbol .semicolon) :
    n < s.tokens.length := by
  obtain ⟨u, hu, hkind⟩ := h
  obtain ⟨i, hi, rfl⟩ := List.getElem_of_mem hu
  by_contra hle
  apply hn i (by omega)
  unfold Stream.kindAt
  rw [List.getElem?_eq_getElem hi]
  exact hkind

end Stream

namespace Parser

/-! ## Two runs side by side -/

variable {α α' β β' : Type}

/-- Where `p` succeeds on `s`, its result is related by `R` to one that `p'` gives on every stream that carries `s`;
if `p` is not known to take a semicolon itself, this is so if one is ahead behind it. -/
def RunsAt (F : Frame) (closes : Bool) (s : Stream) (p : Parser α) (p' : Parser α') (R : α → α' → Prop) : Prop :=
  s.ReadsInside F → ∀ a s', p s = .ok (a, s') →
    s'.ReadsInside F ∧ s'.tokens <:+ s.tokens ∧
    (closes = true → s.SemicolonAhead ∧ s'.tokens.length < s.tokens.length) ∧
    ∃ a', R a a' ∧ ∀ t, s.Carries F t → closes = true ∨ s'.SemicolonAhead →
      ∃ t', p' t = .ok (a', t') ∧ s'.Carries F t'

/-- The same for all streams with at most `n` tokens ahead. -/
def Runs (F : Frame) (n : Nat) (closes : Bool) (p : Parser α) (p' : Parser α') (R : α → α' → Prop) : Prop :=
  ∀ s : Stream, s.tokens.length ≤ n → RunsAt F closes s p p' R

variable {F : Frame} {n : Nat} {closes : Bool} {s : Stream} {p : Parser α} {p' : Parser α'} {f : α → Parser β}
  {f' : α' → Parser β'} {R : α → α' → Prop} {S : β → β' → Prop}

/-- A semicolon was ahead of a parser that takes one, or that leaves one ahead. -/
theorem semicolonAhead_before {s s' : Stream} (hsuffix : s'.tokens <:+ s.tokens)
    (hcloses : closes = true → s.SemicolonAhead ∧ s'.tokens.length < s.tokens.length)
    (hahead : closes = true ∨ s'.SemicolonAhead) : s.SemicolonAhead := by
  rcases hahead with hc | hahead
  · exact (hcloses hc).1
  · exact hahead.of_suffix hsuffix

theorem bind_of_ok {t t₁ : Stream} {a' : α'} (h : p' t = .ok (a', t₁)) : (p' >>= f') t = f' a' t₁ := by
  change (p' t >>= fun x => f' x.1 x.2) = _
  rw [h]
  rfl

theorem RunsAt.pure {a : α} {a' : α'} (h : R a a') : RunsAt F false s (Pure.pure a) (Pure.pure a') R := by
  intro hs b s' heq
  cases heq
  exact ⟨hs, List.suffix_refl _, nofun, a', h, fun t ht _ => ⟨t, rfl, ht⟩⟩

theorem RunsAt.bind (hp : RunsAt F false s p p' R)
    (hf : ∀ a a' s₁, R a a' → s₁.tokens <:+ s.tokens → RunsAt F closes s₁ (f a) (f' a') S) :
    RunsAt F closes s (p >>= f) (p' >>= f') S := by
  intro hs b s₂ h
  obtain ⟨a, s₁, h₁, h₂⟩ := ok_of_bind h
  obtain ⟨hs₁, hsuffix₁, -, a', ha, hrun₁⟩ := hp hs a s₁ h₁
  obtain ⟨hs₂, hsuffix₂, hcloses, b', hb, hrun₂⟩ := hf a a' s₁ ha hsuffix₁ hs₁ b s₂ h₂
  refine ⟨hs₂, hsuffix₂.trans hsuffix₁, fun hc => ?_, b', hb, fun t ht hahead => ?_⟩
  · obtain ⟨hahead, hlt⟩ := hcloses hc
    exact ⟨hahead.of_suffix hsuffix₁, hlt.trans_le hsuffix₁.length_le⟩
  · -- what comes behind `p` shows that `p` did not look behind the tokens of `s`
    have hahead₁ : s₁.SemicolonAhead := semicolonAhead_before hsuffix₂ hcloses hahead
    obtain ⟨t₁, ht₁, hcarries₁⟩ := hrun₁ t ht (.inr hahead₁)
    obtain ⟨t₂, ht₂, hcarries₂⟩ := hrun₂ t₁ hcarries₁ hahead
    exact ⟨t₂, (bind_of_ok ht₁).trans ht₂, hcarries₂⟩

/-- A parser that takes a semicolon, and what follows it. -/
theorem RunsAt.bind_closed (hp : RunsAt F true s p p' R)
    (hf : ∀ a a' s₁, R a a' → s₁.tokens.length < s.tokens.length → RunsAt F false s₁ (f a) (f' a') S) :
    RunsAt F false s (p >>= f) (p' >>= f') S := by
  intro hs b s₂ h
  obtain ⟨a, s₁, h₁, h₂⟩ := ok_of_bind h
  obtain ⟨hs₁, hsuffix₁, hcloses, a', ha, hrun₁⟩ := hp hs a s₁ h₁
  obtain ⟨hs₂, hsuffix₂, -, b', hb, hrun₂⟩ := hf a a' s₁ ha (hcloses rfl).2 hs₁ b s₂ h₂
  refine ⟨hs₂, hsuffix₂.trans hsuffix₁, nofun, b', hb, fun t ht hahead => ?_⟩
  obtain ⟨t₁, ht₁, hcarries₁⟩ := hrun₁ t ht (.inl rfl)
  obtain ⟨t₂, ht₂, hcarries₂⟩ := hrun₂ t₁ hcarries₁ hahead
  exact ⟨t₂, (bind_of_ok ht₁).trans ht₂, hcarries₂⟩

/-- With no token ahead, there is nothing to compare. -/
theorem RunsAt.of_nil (hnil : s.tokens = []) (hp : RunsAt F false s p p' R) (q : Parser α') :
    RunsAt F false s p q R := by
  intro hs a s' h
  obtain ⟨hs', hsuffix, hcloses, a', ha, -⟩ := hp hs a s' h
  refine ⟨hs', hsuffix, hcloses, a', ha, fun t ht hahead => ?_⟩
  rcases hahead with hc | hahead
  · cases hc
  · exact absurd hnil (hahead.of_suffix hsuffix).tokens_ne_nil

/-- Behind a parser that takes a semicolon, something can be made of its result that needs no token. -/
theorem RunsAt.closed_bind (hp : RunsAt F true s p p' R)
    (hf : ∀ a a' s₁, R a a' → s₁.ReadsInside F → ∃ b b', f a s₁ = .ok (b, s₁) ∧ S b b' ∧
      ∀ t₁, s₁.Carries F t₁ → f' a' t₁ = .ok (b', t₁)) :
    RunsAt F true s (p >>= f) (p' >>= f') S := by
  intro hs c s₂ heq
  obtain ⟨a, s₁, h₁, h₂⟩ := ok_of_bind heq
  obtain ⟨hs₁, hsuffix, hcloses, a', ha, hrun⟩ := hp hs a s₁ h₁
  obtain ⟨b, b', hb, hrelated, hb'⟩ := hf a a' s₁ ha hs₁
  rw [hb] at h₂
  cases h₂
  refine ⟨hs₁, hsuffix, hcloses, b', hrelated, fun t ht hahead => ?_⟩
  obtain ⟨t₁, ht₁, hcarries⟩ := hrun t ht hahead
  exact ⟨t₁, (bind_of_ok ht₁).trans (hb' t₁ hcarries), hcarries⟩

theorem RunsAt.fail {expected : String} : RunsAt F closes s (Parser.fail expected) p' R := by
  intro hs a s' h
  cases h

/-! ## Looking ahead -/

/-- A look at something that is alike in both streams where a token is ahead. -/
theorem RunsAt.look {γ γ' : Type} (g : Stream → γ) (g' : Stream → γ') {f : γ → Parser β} {f' : γ' → Parser β'}
    {c : γ'} (hg : ∀ t, s.Carries F t → s.SemicolonAhead → g' t = c) (h : RunsAt F closes s (f (g s)) (f' c) S) :
    RunsAt F closes s (do f (g (← MonadState.get))) (do f' (g' (← MonadState.get))) S := by
  intro hs b s' heq
  obtain ⟨hs', hsuffix, hcloses, b', hb, hrun⟩ := h hs b s' heq
  refine ⟨hs', hsuffix, hcloses, b', hb, fun t ht hahead => ?_⟩
  have hlook := hg t ht (semicolonAhead_before hsuffix hcloses hahead)
  obtain ⟨t', ht', hcarries⟩ := hrun t ht hahead
  refine ⟨t', ?_, hcarries⟩
  change f' (g' t) t = _
  rw [hlook]
  exact ht'

section

variable {f : Token.Kind → Parser β} {f' : Token.Kind → Parser β'}

theorem RunsAt.kind (h : RunsAt F closes s (f s.current.kind) (f' s.current.kind) S) :
    RunsAt F closes s (Parser.kind >>= f) (Parser.kind >>= f') S :=
  .look (·.current.kind) (·.current.kind) (fun _ ht hahead => ht.kind hahead.tokens_ne_nil) h

/-- A look behind tokens that are no semicolon. -/
theorem RunsAt.kindAt {n : Nat} (hn : ∀ i < n, s.kindAt i ≠ .symbol .semicolon)
    (h : RunsAt F closes s (f (s.kindAt n)) (f' (s.kindAt n)) S) :
    RunsAt F closes s (Parser.kindAt n >>= f) (Parser.kindAt n >>= f') S :=
  .look (·.kindAt n) (·.kindAt n) (fun _ ht hahead => ht.kindAt (hahead.lt_length hn)) h

theorem RunsAt.kindAt_one (hk : s.current.kind ≠ .symbol .semicolon)
    (h : RunsAt F closes s (f (s.kindAt 1)) (f' (s.kindAt 1)) S) :
    RunsAt F closes s (Parser.kindAt 1 >>= f) (Parser.kindAt 1 >>= f') S := by
  refine .kindAt (fun i hi => ?_) h
  obtain rfl : i = 0 := by omega
  rw [s.kindAt_zero]
  exact hk

/-- A look that does not matter. -/
theorem RunsAt.kindAt_const {n : Nat} {q : Parser β'} (hq : ∀ k, f' k = q)
    (h : RunsAt F closes s (f (s.kindAt n)) q S) :
    RunsAt F closes s (Parser.kindAt n >>= f) (Parser.kindAt n >>= f') S := by
  intro hs b s' heq
  obtain ⟨hs', hsuffix, hcloses, b', hb, hrun⟩ := h hs b s' heq
  refine ⟨hs', hsuffix, hcloses, b', hb, fun t ht hahead => ?_⟩
  change ∃ t', f' (t.kindAt n) t = .ok (b', t') ∧ _
  rw [hq]
  exact hrun t ht hahead

end

/-- A look at the token ahead, for what is said of it in an error. -/
theorem RunsAt.current (f : Token → Parser β) (f' : Token → Parser β')
    (h : RunsAt F closes s (f s.current) (f' (s.current.moved F.shift)) S) :
    RunsAt F closes s (do f (← MonadState.get).current) (do f' (← MonadState.get).current) S :=
  .look Stream.current Stream.current (fun _ ht hahead => ht.current hahead.tokens_ne_nil) h

theorem RunsAt.mark {f : Mark → Parser β} {f' : Mark → Parser β'}
    (h : ∀ start, start.In F.inside → RunsAt F closes s (f start) (f' (start.moved F.shift)) S) :
    RunsAt F closes s (Parser.mark >>= f) (Parser.mark >>= f') S := by
  intro hs
  have hstart := (hs.placed.start _ s.current_mem).1
  rw [hs.source] at hstart
  exact RunsAt.look (·.current.start) (·.current.start)
    (fun _ ht hahead => by rw [ht.current hahead.tokens_ne_nil]; rfl) (h _ hstart) hs

/-- Both streams have their own bound for a repetition. -/
theorem RunsAt.remaining {f : Nat → Parser β} {f' : Nat → Parser β'}
    (h : ∀ m, s.tokens.length ≤ m → RunsAt F closes s (f s.tokens.length) (f' m) S) :
    RunsAt F closes s (Parser.remaining >>= f) (Parser.remaining >>= f') S := by
  have hle : s.tokens.length ≤ s.tokens.length + F.following.length := Nat.le_add_right _ _
  exact .look (·.tokens.length) (·.tokens.length) (fun _ ht _ => ht.length_tokens) (h _ hle)

/-- An extent is alike whatever is ahead. -/
theorem RunsAt.extentFrom {start : Mark} (hstart : start.In F.inside) {f : Extent → Parser β}
    {f' : Extent → Parser β'} (h : ∀ x, RunsAt F closes s (f x) (f' (x.moved F.shift)) S) :
    RunsAt F closes s (Parser.extentFrom start >>= f) (Parser.extentFrom (start.moved F.shift) >>= f') S := by
  intro hs
  exact RunsAt.look (·.extentFrom start) (·.extentFrom (start.moved F.shift))
    (fun _ ht _ => ht.extentFrom hs hstart) (h _) hs

/-! ## Taking tokens -/

theorem eat_eq (q : Token.Kind → Bool) (s : Stream) :
    eat q s = if q s.current.kind then .ok (true, s.tail) else .ok (false, s) := by
  change (if q s.current.kind then (Parser.advance >>= fun _ => Pure.pure true : Parser Bool)
    else Pure.pure false) s = _
  split <;> rfl

theorem RunsAt.advance {f : Unit → Parser β} {f' : Unit → Parser β'} (h : RunsAt F closes s.tail (f ()) (f' ()) S) :
    RunsAt F closes s (Parser.advance >>= f) (Parser.advance >>= f') S := by
  intro hs b s' heq
  have hsuffix₁ := s.suffix_tail
  obtain ⟨hs', hsuffix, hcloses, b', hb, hrun⟩ := h hs.tail b s' heq
  refine ⟨hs', hsuffix.trans hsuffix₁, fun hc => ?_, b', hb, fun t ht hahead => ?_⟩
  · obtain ⟨hahead, hlt⟩ := hcloses hc
    exact ⟨hahead.of_suffix hsuffix₁, hlt.trans_le hsuffix₁.length_le⟩
  · have hahead₁ : s.tail.SemicolonAhead := semicolonAhead_before hsuffix hcloses hahead
    exact hrun t.tail (ht.tail (hahead₁.of_suffix hsuffix₁).tokens_ne_nil) hahead

/-- Takes a token that `q` holds of, if one is ahead. -/
theorem RunsAt.eat {q : Token.Kind → Bool} {f : Bool → Parser β} {f' : Bool → Parser β'}
    (htrue : q s.current.kind = true → RunsAt F closes s.tail (f true) (f' true) S)
    (hfalse : q s.current.kind = false → RunsAt F closes s (f false) (f' false) S) :
    RunsAt F closes s (Parser.eat q >>= f) (Parser.eat q >>= f') S := by
  -- to take a token or not is to look at it first
  have hsplit : ∀ {γ : Type} (g : Bool → Parser γ), (Parser.eat q >>= g) =
      (Parser.kind >>= fun k => if q k then Parser.advance >>= fun _ => g true else g false) := by
    intro γ g
    funext t
    change (Parser.eat q t >>= fun x => g x.1 x.2) =
      (if q t.current.kind then Parser.advance >>= fun _ => g true else g false) t
    rw [eat_eq]
    split <;> rfl
  rw [hsplit, hsplit]
  refine .kind ?_
  cases hq : q s.current.kind with
  | true => exact .advance (htrue hq)
  | false => exact hfalse hq

/-! ## Streams with few tokens ahead -/

theorem Runs.pure {a : α} {a' : α'} (h : R a a') : Runs F n false (Pure.pure a) (Pure.pure a') R :=
  fun _ _ => .pure h

theorem Runs.fail {expected : String} : Runs F n closes (Parser.fail expected) p' R := fun _ _ => .fail

theorem Runs.fail_bind {expected : String} {f : α → Parser β} {q : Parser β'} :
    Runs F n closes (Parser.fail expected >>= f) q S := by
  intro s _ hs b s' h
  cases h

theorem Runs.failAt_bind {u : Token} {expected : String} {f : α → Parser β} {q : Parser β'} :
    Runs F n closes (Parser.failAt u expected >>= f) q S := by
  intro s _ hs b s' h
  cases h

theorem Runs.bind (hp : Runs F n false p p' R) (hf : ∀ a a', R a a' → Runs F n closes (f a) (f' a') S) :
    Runs F n closes (p >>= f) (p' >>= f') S :=
  fun s hn => (hp s hn).bind fun a a' s₁ ha hsuffix => hf a a' ha s₁ (hsuffix.length_le.trans hn)

theorem Runs.bind_closed (hp : Runs F (n + 1) true p p' R) (hf : ∀ a a', R a a' → Runs F n false (f a) (f' a') S) :
    Runs F (n + 1) false (p >>= f) (p' >>= f') S :=
  fun s hn => (hp s hn).bind_closed fun a a' s₁ ha hlt => hf a a' ha s₁ (by omega)

theorem Runs.of_zero (hp : Runs F 0 false p p' R) (q : Parser α') : Runs F 0 false p q R := by
  intro s hn
  have hnil : s.tokens = [] := List.length_eq_zero_iff.mp (Nat.le_zero.mp hn)
  exact (hp s hn).of_nil hnil q

theorem Runs.pure_of_zero {a : α} {a' : α'} (h : R a a') : Runs F 0 false (Pure.pure a) p' R :=
  (Runs.pure h).of_zero p'

theorem Runs.closed_pure (hp : Runs F n true p p' R)
    (hf : ∀ a a', R a a' → ∃ b b', f a = Pure.pure b ∧ f' a' = Pure.pure b' ∧ S b b') :
    Runs F n true (p >>= f) (p' >>= f') S := by
  refine fun s hn => (hp s hn).closed_bind fun a a' s₁ ha _ => ?_
  obtain ⟨b, b', hb, hb', h⟩ := hf a a' ha
  exact ⟨b, b', by rw [hb]; rfl, h, fun t₁ _ => by rw [hb']; rfl⟩

/-- Behind a parser that takes a semicolon, the extent of what was read. -/
theorem Runs.closed_extent (hp : Runs F n true p p' R) {start : Mark} (hstart : start.In F.inside)
    {g : α → Extent → β} {g' : α' → Extent → β'} (h : ∀ a a', R a a' → ∀ x, S (g a x) (g' a' (x.moved F.shift))) :
    Runs F n true (p >>= fun a => Parser.extentFrom start >>= fun x => Pure.pure (g a x))
      (p' >>= fun a' => Parser.extentFrom (start.moved F.shift) >>= fun x => Pure.pure (g' a' x)) S := by
  refine fun s hn => (hp s hn).closed_bind fun a a' s₁ ha hs₁ => ?_
  refine ⟨_, _, rfl, h a a' ha (s₁.extentFrom start), fun t₁ ht₁ => ?_⟩
  rw [← ht₁.extentFrom hs₁ hstart]
  rfl

/-- A parser with one result in both texts. -/
theorem Runs.same {p p' : Parser α} {f' : α → Parser β'} (hp : Runs F n false p p' Eq)
    (hf : ∀ a, Runs F n closes (f a) (f' a) S) : Runs F n closes (p >>= f) (p' >>= f') S := by
  refine hp.bind ?_
  rintro a _ rfl
  exact hf a

/-- A parser whose result is moved by `g` in the longer text. -/
abbrev RunsTo (F : Frame) (n : Nat) (p : Parser α) (p' : Parser α') (g : α → α') : Prop :=
  Runs F n false p p' fun a a' => a' = g a

theorem Runs.next {g : α → α'} (hp : RunsTo F n p p' g)
    (hf : ∀ a, Runs F n closes (f a) (f' (g a)) S) : Runs F n closes (p >>= f) (p' >>= f') S := by
  refine hp.bind ?_
  rintro a _ rfl
  exact hf a

theorem Runs.map {g : α → β} {g' : α' → β'} (hp : Runs F n false p p' R) (h : ∀ a a', R a a' → S (g a) (g' a')) :
    Runs F n false (g <$> p) (g' <$> p') S := by
  show Runs F n false (p >>= fun a => Pure.pure (g a)) (p' >>= fun a' => Pure.pure (g' a')) S
  exact hp.bind fun a a' ha => .pure (h a a' ha)

theorem Runs.mark {f : Mark → Parser β} {f' : Mark → Parser β'}
    (h : ∀ start, start.In F.inside → Runs F n closes (f start) (f' (start.moved F.shift)) S) :
    Runs F n closes (Parser.mark >>= f) (Parser.mark >>= f') S :=
  fun s hn => .mark fun start hstart => h start hstart s hn

theorem Runs.extentFrom {start : Mark} (hstart : start.In F.inside) {f : Extent → Parser β} {f' : Extent → Parser β'}
    (h : ∀ x, Runs F n closes (f x) (f' (x.moved F.shift)) S) :
    Runs F n closes (Parser.extentFrom start >>= f) (Parser.extentFrom (start.moved F.shift) >>= f') S :=
  fun s hn => .extentFrom hstart fun x => h x s hn

/-- The bound of a repetition in the text inside is the number of its tokens ahead. -/
theorem Runs.remaining {f : Nat → Parser β} {f' : Nat → Parser β'}
    (h : ∀ k m, k ≤ m → Runs F k closes (f k) (f' m) S) :
    Runs F n closes (Parser.remaining >>= f) (Parser.remaining >>= f') S :=
  fun s _ => .remaining fun m hm => h _ m hm s (le_refl _)

theorem Runs.kind {f : Token.Kind → Parser β} {f' : Token.Kind → Parser β'}
    (h : ∀ k, Runs F n closes (f k) (f' k) S) : Runs F n closes (Parser.kind >>= f) (Parser.kind >>= f') S :=
  fun s hn => .kind (h _ s hn)

/-- Behind a token that is taken, one token less is ahead. -/
theorem Runs.advance {f : Unit → Parser β} {f' : Unit → Parser β'} (h : Runs F (n - 1) closes (f ()) (f' ()) S) :
    Runs F n closes (Parser.advance >>= f) (Parser.advance >>= f') S := by
  refine fun s hn => .advance (h _ ?_)
  rw [s.tokens_tail, List.length_tail]
  omega

theorem Runs.eat {q : Token.Kind → Bool} {f : Bool → Parser β} {f' : Bool → Parser β'}
    (htrue : Runs F (n - 1) closes (f true) (f' true) S) (hfalse : Runs F n closes (f false) (f' false) S) :
    Runs F n closes (Parser.eat q >>= f) (Parser.eat q >>= f') S := by
  intro s hn
  refine .eat (fun _ => htrue _ ?_) fun _ => hfalse s hn
  rw [s.tokens_tail, List.length_tail]
  omega

/-! ### Single tokens -/

theorem runs_eat (q : Token.Kind → Bool) : Runs F n false (Parser.eat q) (Parser.eat q) Eq := by
  intro s hn
  have h : RunsAt F false s (Parser.eat q >>= Pure.pure) (Parser.eat q >>= Pure.pure) Eq :=
    .eat (fun _ => .pure rfl) fun _ => .pure rfl
  rwa [bind_pure] at h

theorem runs_expect (q : Token.Kind → Bool) (expected : String) :
    Runs F n false (expect q expected) (expect q expected) Eq := by
  refine (runs_eat q).same fun taken => ?_
  cases taken with
  | true => exact .pure rfl
  | false => exact .fail

theorem runs_keyword (k : Keyword) (expected : String) :
    Runs F n false (expectKeyword k expected) (expectKeyword k expected) Eq :=
  runs_expect _ expected

theorem runs_symbol (y : Symbol) (expected : String) :
    Runs F n false (expectSymbol y expected) (expectSymbol y expected) Eq :=
  runs_expect _ expected

theorem runs_name (expected : String) : Runs F n false (name expected) (name expected) Eq := by
  intro s hn
  refine .current (fun u => expect isName expected >>= fun _ => Pure.pure u.lexeme)
    (fun u => expect isName expected >>= fun _ => Pure.pure u.lexeme) ?_
  exact (runs_expect isName expected s hn).bind fun _ _ s₁ _ _ => .pure rfl

/-- Takes a semicolon, if one is ahead, and is done. -/
theorem RunsAt.eatSemicolon {f : Bool → Parser β} {f' : Bool → Parser β'} {b : β} {b' : β'}
    (hb : S b b') (htrue : f true = Pure.pure b) (htrue' : f' true = Pure.pure b')
    (hfalse : RunsAt F true s (f false) (f' false) S) :
    RunsAt F true s (eatSymbol .semicolon >>= f) (eatSymbol .semicolon >>= f') S := by
  have hrun : ∀ {γ : Type} (g : Bool → Parser γ) (u : Stream), (eatSymbol .semicolon >>= g) u =
      if isSymbol .semicolon u.current.kind then g true u.tail else g false u := by
    intro γ g u
    change (Parser.eat _ u >>= fun x => g x.1 x.2) = _
    rw [eat_eq]
    split <;> rfl
  intro hs c s' h
  rw [hrun] at h
  by_cases hk : isSymbol .semicolon s.current.kind = true
  · rw [if_pos hk, htrue] at h
    cases h
    have hkind := isSymbol_iff.mp hk
    have hne : s.tokens ≠ [] := hs.tokens_ne_nil (by rw [hkind]; nofun)
    have hmem := (Stream.follows_tail hs.genuine (by rw [hkind]; nofun)).2
    refine ⟨hs.tail, s.suffix_tail, fun _ => ⟨⟨_, hmem, hkind⟩, ?_⟩, b', hb, fun t ht _ => ⟨t.tail, ?_, ht.tail hne⟩⟩
    · have hpos := List.length_pos_iff.mpr hne
      rw [s.tokens_tail, List.length_tail]
      omega
    · rw [hrun, ht.kind hne, if_pos hk, htrue']
      rfl
  · rw [if_neg hk] at h
    obtain ⟨hs', hsuffix, hcloses, c', hc, hrest⟩ := hfalse hs c s' h
    refine ⟨hs', hsuffix, hcloses, c', hc, fun t ht hahead => ?_⟩
    obtain ⟨t', ht', hcarries⟩ := hrest t ht hahead
    refine ⟨t', ?_, hcarries⟩
    rw [hrun, ht.kind (hcloses rfl).1.tokens_ne_nil, if_neg hk, ht']

theorem runs_semicolon : Runs F n true semicolon semicolon Eq :=
  fun _ _ => .eatSemicolon rfl rfl rfl .fail

/-- The end of a statement. -/
theorem Runs.semicolon {b : β} {b' : β'} (h : S b b') :
    Runs F n true (Parser.semicolon >>= fun _ => Pure.pure b) (Parser.semicolon >>= fun _ => Pure.pure b') S :=
  runs_semicolon.closed_pure fun _ _ _ => ⟨b, b', rfl, rfl, h⟩

end Parser

end ObjectAction
