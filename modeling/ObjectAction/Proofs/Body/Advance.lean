/-
Progress of the parser. `Moves k strict p q` says of two parsers that they do the same on every stream with at most `k`
tokens ahead, and that they only take tokens there, of which none is an end of input, and at least one if `strict`.
With one parser in both places it says how that parser advances. With two it says that they differ only in what is
never reached, which is how the bounds of loops and of nesting are shown not to matter.

Loops and nesting are iterations of one level, which calls the next one behind at least one token. The lemmas on
iterations stand at the head; then there is one lemma for every parser of expressions, in the order of the definitions.
-/
import ObjectAction.Proofs.Body.Parallel
import ObjectAction.Proofs.Body.Soundness

namespace ObjectAction

open Text (Mark)

/-! ## Levels -/

/-- What is defined level by level is an iteration. -/
theorem eq_iterate {β : Type} (f : Nat → β) {level : β → β} (h : ∀ n, f (n + 1) = level (f n)) (n : Nat) :
    f n = level^[n] (f 0) := by
  induction n with
  | zero => rfl
  | succ n ih => rw [h, ih, Function.iterate_succ_apply']

section

variable {β γ : Type} {R : Nat → β → γ → Prop} {level : β → β} {level' : γ → γ} {K k n m : Nat}

/-- From what stands behind the last level on, the relation is kept. -/
theorem iterate_related {b : β} {c : γ} (hlevel : ∀ k ≤ K, ∀ b c, (∀ j < k, R j b c) → R k (level b) (level' c))
    (h : ∀ k ≤ K, R k b c) (n : Nat) : ∀ k ≤ K, R k (level^[n] b) (level'^[n] c) := by
  induction n with
  | zero => exact h
  | succ n ih =>
    intro k hk
    rw [Function.iterate_succ_apply', Function.iterate_succ_apply']
    exact hlevel k hk _ _ fun j hj => ih j (by omega)

variable (hlevel : ∀ k b c, (∀ j < k, R j b c) → R k (level b) (level' c))

include hlevel

/-- More levels than the measure are enough: what stands behind them is not reached. -/
theorem iterate_settled (hn : k < n) (hm : k < m) (b : β) (c : γ) : R k (level^[n] b) (level'^[m] c) := by
  induction n generalizing k m with
  | zero => omega
  | succ n ih =>
    -- a smaller measure is left to the levels behind this one, of which there is one less on both sides
    obtain ⟨m, rfl⟩ := Nat.exists_eq_add_of_lt (show 0 < m by omega)
    rw [Function.iterate_succ_apply', Function.iterate_succ_apply']
    exact hlevel k _ _ fun j hj => ih (by omega) (by omega)

/-- As many levels as the measure are enough, if what stands behind them does the work of one more. -/
theorem iterate_exhausted {c : γ} (hlast : ∀ b, R 0 (level b) c) (hn : k < n) (hm : k ≤ m) (b : β) :
    R k (level^[n] b) (level'^[m] c) := by
  induction n generalizing k m with
  | zero => omega
  | succ n ih =>
    rw [Function.iterate_succ_apply']
    cases m with
    | zero =>
      obtain rfl : k = 0 := by omega
      exact hlast _
    | succ m =>
      rw [Function.iterate_succ_apply']
      exact hlevel k _ _ fun j hj => ih (by omega) (by omega)

end

/-! ## Streams -/

namespace Stream

variable {s s' s'' : Stream} {ts us : List Token} {k : Nat}

/-- The stream ends in an end of input, and has at most `k` tokens ahead. -/
structure Within (k : Nat) (s : Stream) : Prop where
  final : s.final.kind = .endOfInput
  length : s.tokens.length ≤ k

/-- A later stream, which lacks the tokens `ts`; none of them is an end of input. -/
structure Passes (s : Stream) (ts : List Token) (s' : Stream) : Prop extends s.Follows ts s' where
  inner : ∀ t ∈ ts, t.kind ≠ .endOfInput

theorem Passes.refl (s : Stream) : s.Passes [] s := ⟨⟨rfl, rfl, rfl⟩, nofun⟩

theorem Passes.trans (h : s.Passes ts s') (h' : s'.Passes us s'') : s.Passes (ts ++ us) s'' := by
  refine ⟨h.toFollows.trans h'.toFollows, fun t ht => ?_⟩
  rcases List.mem_append.mp ht with ht | ht
  · exact h.inner t ht
  · exact h'.inner t ht

theorem Passes.within (h : s.Passes ts s') (hs : s.Within k) : s'.Within k := by
  have hlength := hs.length
  rw [h.tokens, List.length_append] at hlength
  exact ⟨by rw [h.final]; exact hs.final, by omega⟩

/-- Behind a token that is taken, fewer tokens are ahead. -/
theorem Passes.within_lt (h : s.Passes ts s') (hne : ts ≠ []) (hs : s.Within k) : ∃ j < k, s'.Within j := by
  have hlength := hs.length
  have hpos := List.length_pos_iff.mpr hne
  rw [h.tokens, List.length_append] at hlength
  exact ⟨s'.tokens.length, by omega, by rw [h.final]; exact hs.final, le_rfl⟩

theorem Within.current_end (hs : s.Within 0) : s.current.kind = .endOfInput := by
  have hnil : s.tokens = [] := List.length_eq_zero_iff.mp (Nat.le_zero.mp hs.length)
  unfold current
  rw [hnil]
  exact hs.final

/-- A token that is no end of input can be taken. -/
theorem passes_tail (hfinal : s.final.kind = .endOfInput) (h : s.current.kind ≠ .endOfInput) :
    s.Passes [s.current] s.tail := by
  obtain ⟨source, previous, tokens, final⟩ := s
  cases tokens with
  | nil => exact absurd hfinal h
  | cons t rest => exact ⟨⟨rfl, rfl, rfl⟩, by simpa using h⟩

end Stream

namespace Parser

/-! ## Moving on -/

variable {α β : Type}

/-- On `s`, both parsers do the same. What they take there, if they succeed, is no end of input; `strict` parsers take
at least one token. -/
structure MovesAt (s : Stream) (strict : Bool) (p q : Parser α) : Prop where
  same : p s = q s
  moves : ∀ a s', q s = .ok (a, s') → ∃ ts, s.Passes ts s' ∧ (strict = true → ts ≠ [])

/-- The same on every stream with at most `k` tokens ahead. -/
def Moves (k : Nat) (strict : Bool) (p q : Parser α) : Prop := ∀ s : Stream, s.Within k → MovesAt s strict p q

/-- How one parser moves on. -/
abbrev MovesOn (k : Nat) (strict : Bool) (p : Parser α) : Prop := Moves k strict p p

variable {s : Stream} {k : Nat} {strict once : Bool} {p q : Parser α} {f g : α → Parser β}

theorem MovesAt.bind (hp : MovesAt s once p q)
    (hf : ∀ a s' ts, s.Passes ts s' → (once = true → ts ≠ []) → MovesAt s' strict (f a) (g a)) :
    MovesAt s (once || strict) (p >>= f) (q >>= g) := by
  obtain ⟨hsame, hmoves⟩ := hp
  constructor
  · change (p s >>= fun x => f x.1 x.2) = (q s >>= fun x => g x.1 x.2)
    rw [hsame]
    cases hq : q s with
    | error e => rfl
    | ok x =>
      obtain ⟨ts, hts, hne⟩ := hmoves x.1 x.2 hq
      exact (hf x.1 x.2 ts hts hne).same
  · intro b s₂ h
    obtain ⟨a, s₁, h₁, h₂⟩ := ok_of_bind h
    obtain ⟨ts, hts, hne⟩ := hmoves a s₁ h₁
    obtain ⟨us, hus, hne'⟩ := (hf a s₁ ts hts hne).moves b s₂ h₂
    refine ⟨ts ++ us, hts.trans hus, fun hstrict hnil => ?_⟩
    obtain ⟨rfl, rfl⟩ := List.append_eq_nil_iff.mp hnil
    rcases Bool.or_eq_true_iff.mp hstrict with honce | hstrict
    · exact hne honce rfl
    · exact hne' hstrict rfl

theorem MovesAt.weaken (h : MovesAt s once p q) (hle : strict = true → once = true) : MovesAt s strict p q := by
  refine ⟨h.same, fun a s' heq => ?_⟩
  obtain ⟨ts, hts, hne⟩ := h.moves a s' heq
  exact ⟨ts, hts, fun hstrict => hne (hle hstrict)⟩

theorem Moves.weaken (h : Moves k true p q) : Moves k strict p q := fun s hs => (h s hs).weaken fun _ => rfl

theorem Moves.mono {j : Nat} (h : Moves k strict p q) (hle : j ≤ k) : Moves j strict p q :=
  fun s hs => h s ⟨hs.final, hs.length.trans hle⟩

theorem Moves.pure {a : α} : MovesOn k false (Pure.pure a) := by
  refine fun s _ => ⟨rfl, fun b s' heq => ?_⟩
  cases heq
  exact ⟨[], .refl s, nofun⟩

theorem Moves.failAt {t : Token} {expected : String} :
    MovesOn k strict (Parser.failAt t expected : Parser α) := by
  refine fun s _ => ⟨rfl, fun b s' heq => ?_⟩
  cases heq

theorem Moves.fail {expected : String} :
    MovesOn k strict (Parser.fail expected : Parser α) := by
  refine fun s _ => ⟨rfl, fun b s' heq => ?_⟩
  cases heq

/-- Whatever the first parser takes, the rest goes on behind it. -/
theorem Moves.next (hp : Moves k once p q) (hf : ∀ a, Moves k strict (f a) (g a)) :
    Moves k strict (p >>= f) (q >>= g) := by
  intro s hs
  have hbind := (hp s hs).bind fun a s' ts hts _ => hf a s' (hts.within hs)
  exact hbind.weaken fun h => by rw [h, Bool.or_true]

/-- Behind a parser that takes a token, fewer tokens are ahead. -/
theorem Moves.step (hp : Moves k true p q) (hf : ∀ a, ∀ j < k, Moves j false (f a) (g a)) :
    Moves k strict (p >>= f) (q >>= g) := by
  intro s hs
  have hbind : MovesAt s (true || false) (p >>= f) (q >>= g) := (hp s hs).bind fun a s' ts hts hne => by
    obtain ⟨j, hj, hs'⟩ := hts.within_lt (hne rfl) hs
    exact hf a j hj s' hs'
  exact hbind.weaken fun _ => rfl

theorem Moves.map {h : α → β} (hp : Moves k strict p q) : Moves k strict (h <$> p) (h <$> q) := by
  intro s hs
  have hbind := (hp s hs).bind fun a s' ts hts _ => Moves.pure (a := h a) s' (hts.within hs)
  exact hbind.weaken fun hstrict => by rw [hstrict, Bool.true_or]

/-! ## Looking ahead -/

theorem Moves.get {f g : Stream → Parser β} (h : ∀ s, s.Within k → MovesAt s strict (f s) (g s)) :
    Moves k strict (MonadState.get >>= f) (MonadState.get >>= g) := by
  intro s hs
  obtain ⟨hsame, hmoves⟩ := h s hs
  exact ⟨hsame, hmoves⟩

/-- A look at something that takes no token. -/
theorem moves_look (look : Stream → α) :
    MovesOn k false (do return look (← MonadState.get)) :=
  Moves.get fun s hs => Moves.pure s hs

theorem Moves.mark {f g : Mark → Parser β} (h : ∀ start, Moves k strict (f start) (g start)) :
    Moves k strict (Parser.mark >>= f) (Parser.mark >>= g) :=
  (moves_look _).next h

theorem Moves.extentFrom {start : Mark} {f g : Extent → Parser β} (h : ∀ x, Moves k strict (f x) (g x)) :
    Moves k strict (Parser.extentFrom start >>= f) (Parser.extentFrom start >>= g) :=
  (moves_look _).next h

/-- What is built of an extent takes no token. -/
theorem moves_extent {start : Mark} {build : Extent → α} :
    MovesOn k false (do return build (← Parser.extentFrom start)) :=
  .extentFrom fun _ => .pure

theorem Moves.kindAt {n : Nat} {f g : Token.Kind → Parser β} (h : ∀ kd, Moves k strict (f kd) (g kd)) :
    Moves k strict (Parser.kindAt n >>= f) (Parser.kindAt n >>= g) :=
  (moves_look _).next h

/-- A repetition has as many passes as there are tokens ahead. -/
theorem Moves.remaining {f g : Nat → Parser β} (h : ∀ j ≤ k, Moves j strict (f j) (g j)) :
    Moves k strict (Parser.remaining >>= f) (Parser.remaining >>= g) := by
  refine Moves.get fun s hs => ?_
  exact h s.tokens.length hs.length s ⟨hs.final, le_rfl⟩

/-- What follows a look at the token ahead may depend on it. -/
theorem Moves.kind {f g : Token.Kind → Parser β}
    (h : ∀ s kd, s.Within k → s.current.kind = kd → MovesAt s strict (f kd) (g kd)) :
    Moves k strict (Parser.kind >>= f) (Parser.kind >>= g) :=
  Moves.get fun s hs => h s _ hs rfl

/-- A step that leaves the stream as it is. -/
theorem MovesAt.peek {P : α → Prop} (hp : Peeks s p P) (hf : ∀ a, P a → MovesAt s strict (f a) (g a)) :
    MovesAt s strict (p >>= f) (p >>= g) := by
  have hbind : ∀ {h : α → Parser β}, (p >>= h) s = p s >>= fun x => h x.1 x.2 := rfl
  cases hrun : p s with
  | error e =>
    refine ⟨by rw [hbind, hbind, hrun]; rfl, fun b s' h => ?_⟩
    rw [hbind, hrun] at h
    cases h
  | ok x =>
    obtain ⟨a, s'⟩ := x
    obtain ⟨rfl, ha⟩ := hp a s' hrun
    have hok : ∀ {h : α → Parser β}, (p >>= h) s' = h a s' := bind_of_ok hrun
    refine ⟨by rw [hok, hok]; exact (hf a ha).same, ?_⟩
    rw [hok]
    exact (hf a ha).moves

theorem MovesAt.kindAt {n : Nat} {f g : Token.Kind → Parser β}
    (h : MovesAt s strict (f (s.kindAt n)) (g (s.kindAt n))) :
    MovesAt s strict (Parser.kindAt n >>= f) (Parser.kindAt n >>= g) :=
  ⟨h.same, h.moves⟩

/-! ## Taking tokens -/

/-- A token that is no end of input is taken; the rest goes on behind it, with fewer tokens ahead. -/
theorem MovesAt.take {f g : Unit → Parser β} (hs : s.Within k) {kd : Token.Kind} (hk : s.current.kind = kd)
    (hne : kd ≠ .endOfInput) (hf : ∀ j < k, s.tail.Within j → MovesAt s.tail false (f ()) (g ())) :
    MovesAt s strict (Parser.advance >>= f) (Parser.advance >>= g) := by
  have htail := Stream.passes_tail hs.final (hk ▸ hne)
  obtain ⟨j, hj, hs'⟩ := htail.within_lt (List.cons_ne_nil _ _) hs
  obtain ⟨hsame, hmoves⟩ := hf j hj hs'
  refine ⟨hsame, fun b s' h => ?_⟩
  obtain ⟨ts, hts, -⟩ := hmoves b s' h
  exact ⟨_, htail.trans hts, fun _ => List.cons_ne_nil _ _⟩

/-- What follows the token does not depend on the place. -/
theorem MovesAt.advance {f g : Unit → Parser β} (hs : s.Within k) {kd : Token.Kind} (hk : s.current.kind = kd)
    (hne : kd ≠ .endOfInput) (hf : ∀ j < k, Moves j false (f ()) (g ())) :
    MovesAt s strict (Parser.advance >>= f) (Parser.advance >>= g) :=
  .take hs hk hne fun j hj hs' => hf j hj _ hs'

theorem eat_bind {test : Token.Kind → Bool} {f : Bool → Parser β} :
    (Parser.eat test >>= f) =
      (Parser.kind >>= fun kd => if test kd then Parser.advance >>= fun _ => f true else f false) := by
  funext s
  change (Parser.eat test s >>= fun x => f x.1 x.2) =
    (if test s.current.kind then Parser.advance >>= fun _ => f true else f false) s
  rw [eat_eq]
  split <;> rfl

/-- A token is taken if the test holds of it, which does not hold of an end of input. -/
theorem Moves.eat {test : Token.Kind → Bool} (htest : test .endOfInput = false) {f g : Bool → Parser β}
    (htrue : ∀ j < k, Moves j false (f true) (g true)) (hfalse : Moves k strict (f false) (g false)) :
    Moves k strict (Parser.eat test >>= f) (Parser.eat test >>= g) := by
  rw [eat_bind, eat_bind]
  refine .kind fun s kd hs hk => ?_
  cases hq : test kd with
  | true =>
    refine .advance hs hk (fun hend => ?_) htrue
    rw [hend, htest] at hq
    cases hq
  | false => exact hfalse s hs

theorem moves_expect {test : Token.Kind → Bool} (htest : test .endOfInput = false) (expected : String) :
    MovesOn k true (expect test expected) :=
  .eat htest (fun _ _ => .pure) .fail

theorem moves_keyword (kw : Keyword) (expected : String) :
    MovesOn k true (expectKeyword kw expected) :=
  moves_expect rfl expected

theorem moves_symbol (y : Symbol) (expected : String) :
    MovesOn k true (expectSymbol y expected) :=
  moves_expect rfl expected

theorem moves_semicolon : MovesOn k true semicolon := moves_symbol _ _

theorem moves_name (expected : String) : MovesOn k true (name expected) := by
  have hname : MovesOn k true (MonadState.get >>= fun s : Stream => expect isName expected >>= fun _ =>
      Pure.pure s.current.lexeme) :=
    .get fun s hs => (moves_expect rfl expected).step (fun _ _ _ => .pure) s hs
  exact hname

/-- A name that was seen is taken. -/
theorem MovesAt.name {f g : String → Parser β} {expected : String} (hs : s.Within k)
    (hname : isName s.current.kind = true)
    (hf : ∀ j < k, s.tail.Within j → MovesAt s.tail false (f s.current.lexeme) (g s.current.lexeme)) :
    MovesAt s strict (Parser.name expected >>= f) (Parser.name expected >>= g) := by
  have hok : Parser.name expected s = .ok (s.current.lexeme, s.tail) := by rw [name_eq, if_pos hname]
  have hne : s.current.kind ≠ .endOfInput := fun hend => by
    rw [hend] at hname
    cases hname
  have htake : MovesAt s strict (Parser.advance >>= fun _ => f s.current.lexeme)
      (Parser.advance >>= fun _ => g s.current.lexeme) := .take hs rfl hne hf
  have hbind : ∀ h : String → Parser β, (Parser.name expected >>= h) s =
      (Parser.advance >>= fun _ => h s.current.lexeme) s := fun h => bind_of_ok hok
  refine ⟨by rw [hbind, hbind]; exact htake.same, ?_⟩
  rw [hbind]
  exact htake.moves

/-- Where the input ends, a test does not hold. -/
theorem eat_bind_end {test : Token.Kind → Bool} (htest : test .endOfInput = false) (hs : s.Within 0)
    (f : Bool → Parser β) : (Parser.eat test >>= f) s = f false s := by
  rw [eat_bind]
  change (if test s.current.kind then _ else _ : Parser β) s = _
  rw [hs.current_end, htest]
  rfl

/-! ## Arguments -/

/-- One argument; `rest` reads those behind a comma. -/
def argumentPass (inner : Parser Expression) (rest : Parser (List Argument)) : Parser (List Argument) := do
  let start ← mark
  let parameter ← name "parameter name"
  expectSymbol .colon "':'"
  let value ← inner
  let argument := Argument.mk (← extentFrom start) parameter value
  if ← eatSymbol .comma then
    return argument :: (← rest)
  else
    expectSymbol .rightParen "',' or ')'"
    return [argument]

theorem argumentsUpTo_eq (inner : Parser Expression) (n : Nat) :
    argumentsUpTo inner n = (argumentPass inner)^[n] (fail "parameter name") :=
  eq_iterate (argumentsUpTo inner) (fun _ => rfl) n

section

variable {inner inner' : Parser Expression} (hinner : ∀ j < k, Moves j true inner inner')

include hinner

theorem moves_argumentPass {rest rest' : Parser (List Argument)} (hrest : ∀ j < k, Moves j true rest rest') :
    Moves k true (argumentPass inner rest) (argumentPass inner' rest') := by
  refine .mark fun start => (moves_name _).step fun parameter j hj => ?_
  refine (moves_symbol _ _).next fun _ => (hinner j hj).next fun value => .extentFrom fun x => ?_
  refine .eat rfl (fun i hi => ?_) ?_
  · exact (hrest i (by omega)).next fun arguments => .pure
  · exact (moves_symbol _ _).next fun _ => .pure

theorem moves_argumentsUpTo (n : Nat) : Moves k true (argumentsUpTo inner n) (argumentsUpTo inner' n) := by
  rw [argumentsUpTo_eq, argumentsUpTo_eq]
  refine iterate_related (R := fun k => Moves k true) (fun i hi rest rest' hrest => ?_) (fun _ _ => .fail) n k le_rfl
  exact moves_argumentPass (fun j hj => hinner j (by omega)) hrest

theorem moves_arguments : Moves k true (arguments inner) (arguments inner') := by
  refine (moves_symbol _ _).step fun _ j hj => .eat rfl (fun i hi => .pure) (.remaining fun i hi => ?_)
  exact (moves_argumentsUpTo (fun _ h => hinner _ (by omega)) i).weaken

/-! ## Primary expressions -/

theorem moves_primary : Moves k true (primary inner) (primary inner') := by
  refine .mark fun start => .kind fun s kd hs hk => ?_
  split
  · exact .advance hs hk nofun fun _ _ => moves_extent
  · exact .advance hs hk nofun fun _ _ => moves_extent
  · exact .advance hs hk nofun fun _ _ => moves_extent
  · exact .advance hs hk nofun fun _ _ => moves_extent
  · exact .advance hs hk nofun fun _ _ => moves_extent
  · exact .advance hs hk nofun fun _ _ => moves_extent
  · exact .advance hs hk nofun fun _ _ => moves_extent
  · refine .advance hs hk nofun fun _ _ => (moves_symbol _ _).next fun _ => ?_
    exact (moves_name _).next fun parameter => moves_extent
  · refine .advance hs hk nofun fun _ _ => (moves_symbol _ _).next fun _ => ?_
    exact (moves_name _).next fun parameter => moves_extent
  · exact .advance hs hk nofun fun j hj => (hinner j hj).next fun e => (moves_symbol _ _).next fun _ => .pure
  · refine .advance hs hk nofun fun j hj => (moves_name _).next fun function => ?_
    exact (moves_arguments fun i hi => hinner i (by omega)).next fun args => moves_extent
  · refine .advance hs hk nofun fun j hj => (moves_name _).next fun member => .kind fun s' kd' hs' hk' => ?_
    split
    · exact (moves_arguments fun i hi => hinner i (by omega)).next (fun args => moves_extent) s' hs'
    · exact moves_extent s' hs'
  · exact (moves_name _).step (fun variableName _ _ => moves_extent) s hs

end

/-! ## Selections -/

/-- One selection from an expression; `rest` goes on from the result. -/
def selectionPass (inner : Parser Expression) (start : Mark) (rest : Expression → Parser Expression)
    (e : Expression) : Parser Expression := do
  if ← eatSymbol .dot then
    let member ← name "attribute or operation name"
    if isSymbol .leftParen (← kind) then
      let args ← arguments inner
      rest (.invoke (← extentFrom start) (.receiver e) member args)
    else
      rest (.field (← extentFrom start) e member)
  else if ← eatSymbol .leftBracket then
    let position ← inner
    expectSymbol .rightBracket "']'"
    rest (.index (← extentFrom start) e position)
  else return e

theorem selections_eq (inner : Parser Expression) (start : Mark) (n : Nat) :
    selections inner start n = (selectionPass inner start)^[n] Pure.pure :=
  eq_iterate (selections inner start) (fun _ => rfl) n

/-- One prefix operator; `rest` reads its operand. -/
def prefixPass (inner : Parser Expression) (rest : Parser Expression) : Parser Expression := do
  let start ← mark
  match ← prefixOperator with
  | none => selection inner
  | some op =>
    advance
    let operand ← rest
    return .unary (← extentFrom start) op operand

theorem prefixed_eq (inner : Parser Expression) (n : Nat) :
    prefixed inner n = (prefixPass inner)^[n] (selection inner) :=
  eq_iterate (prefixed inner) (fun _ => rfl) n

section

variable {inner inner' : Parser Expression} (hinner : ∀ j < k, Moves j true inner inner')

include hinner

theorem moves_selectionPass (start : Mark) {rest rest' : Expression → Parser Expression}
    (hrest : ∀ j < k, ∀ e, Moves j false (rest e) (rest' e)) (e : Expression) :
    Moves k false (selectionPass inner start rest e) (selectionPass inner' start rest' e) := by
  refine .eat rfl (fun j hj => ?_) (.eat rfl (fun j hj => ?_) .pure)
  · refine (moves_name _).next fun member => .kind fun s kd hs hk => ?_
    split
    · refine (moves_arguments fun i hi => hinner i (by omega)).next (fun args => ?_) s hs
      exact .extentFrom fun x => hrest j hj _
    · exact Moves.extentFrom (fun x => hrest j hj _) s hs
  · refine (hinner j hj).next fun position => (moves_symbol _ _).next fun _ => ?_
    exact .extentFrom fun x => hrest j hj _

theorem moves_selections (start : Mark) (n : Nat) (e : Expression) :
    Moves k false (selections inner start n e) (selections inner' start n e) := by
  rw [selections_eq, selections_eq]
  refine iterate_related (R := fun k (r r' : Expression → Parser Expression) => ∀ e, Moves k false (r e) (r' e))
    (fun i hi rest rest' hrest => ?_) (fun _ _ _ => .pure) n k le_rfl e
  exact moves_selectionPass (fun j hj => hinner j (by omega)) start hrest

theorem moves_selection : Moves k true (selection inner) (selection inner') := by
  refine .mark fun start => (moves_primary hinner).step fun e j hj => .remaining fun i hi => ?_
  exact moves_selections (fun _ h => hinner _ (by omega)) start i e

/-! ## Operators -/

theorem moves_prefixPass {rest rest' : Parser Expression} (hrest : ∀ j < k, Moves j true rest rest') :
    Moves k true (prefixPass inner rest) (prefixPass inner' rest') := by
  refine .mark fun start s hs => .peek (peeks_prefixOperator s) fun found hahead => ?_
  cases found with
  | none => exact moves_selection hinner s hs
  | some op =>
    -- the operator was seen ahead, so that it is taken here
    have hne : op.lexeme.kind ≠ .endOfInput := by cases op <;> nofun
    refine .advance hs (hahead op rfl).1 hne fun j hj => ?_
    exact (hrest j hj).next fun operand => moves_extent

theorem moves_unary : Moves k true (unary inner) (unary inner') := by
  refine .remaining fun j hj => ?_
  rw [prefixed_eq, prefixed_eq]
  refine iterate_related (R := fun k => Moves k true) (fun i hi rest rest' hrest => ?_) (fun i hi => ?_) j j le_rfl
  · exact moves_prefixPass (fun l hl => hinner l (by omega)) hrest
  · exact moves_selection fun l hl => hinner l (by omega)

end

/-- One operator and its right operand; `rest` goes on from the result. -/
def operationPass (operator : Token.Kind → Option BinaryOperator) (operand : Parser Expression) (start : Mark)
    (rest : Expression → Parser Expression) (left : Expression) : Parser Expression := do
  match operator (← kind) with
  | none => return left
  | some op =>
    advance
    let right ← operand
    rest (.binary (← extentFrom start) left op right)

theorem operations_eq (operator : Token.Kind → Option BinaryOperator) (operand : Parser Expression) (start : Mark)
    (n : Nat) : operations operator operand start n = (operationPass operator operand start)^[n] Pure.pure :=
  eq_iterate (operations operator operand start) (fun _ => rfl) n

section

variable {operator : Token.Kind → Option BinaryOperator} (hoperator : operator .endOfInput = none)
  {operand operand' : Parser Expression} (hoperand : ∀ j ≤ k, Moves j true operand operand')

include hoperator hoperand

theorem moves_operationPass (start : Mark) {rest rest' : Expression → Parser Expression}
    (hrest : ∀ j < k, ∀ e, Moves j false (rest e) (rest' e)) (left : Expression) :
    Moves k false (operationPass operator operand start rest left)
      (operationPass operator operand' start rest' left) := by
  refine .kind fun s kd hs hk => ?_
  cases hop : operator kd with
  | none => exact Moves.pure s hs
  | some op =>
    refine .advance hs hk (fun hend => ?_) fun j hj => ?_
    · rw [hend, hoperator] at hop
      cases hop
    · exact (hoperand j hj.le).next fun right => .extentFrom fun x => hrest j hj _

theorem moves_leftAssociative :
    Moves k true (leftAssociative operator operand) (leftAssociative operator operand') := by
  refine .mark fun start => (hoperand k le_rfl).step fun left j hj => .remaining fun i hi => ?_
  rw [operations_eq, operations_eq]
  refine iterate_related (R := fun k (r r' : Expression → Parser Expression) => ∀ e, Moves k false (r e) (r' e))
    (fun l hl rest rest' hrest => ?_) (fun _ _ _ => .pure) i i le_rfl left
  exact moves_operationPass hoperator (fun m hm => hoperand m (by omega)) start hrest

theorem moves_nonAssociative :
    Moves k true (nonAssociative operator operand) (nonAssociative operator operand') := by
  refine .mark fun start => (hoperand k le_rfl).step fun left j hj => .kind fun s kd hs hk => ?_
  cases hop : operator kd with
  | none => exact Moves.pure s hs
  | some op =>
    refine .advance hs hk (fun hend => ?_) fun i hi => ?_
    · rw [hend, hoperator] at hop
      cases hop
    · refine (hoperand i (by omega)).next fun right => .kind fun s' kd' hs' hk' => ?_
      split
      · exact Moves.fail.step (fun _ _ _ => moves_extent) s' hs'
      · exact moves_extent s' hs'

end

section

variable {inner inner' : Parser Expression} (hinner : ∀ j < k, Moves j true inner inner')

include hinner

theorem moves_product : Moves k true (product inner) (product inner') :=
  moves_leftAssociative rfl fun _ hj => moves_unary fun i hi => hinner i (by omega)

theorem moves_sum : Moves k true (sum inner) (sum inner') :=
  moves_leftAssociative rfl fun _ hj => moves_product fun i hi => hinner i (by omega)

theorem moves_comparison : Moves k true (comparison inner) (comparison inner') :=
  moves_nonAssociative rfl fun _ hj => moves_sum fun i hi => hinner i (by omega)

theorem moves_conjunction : Moves k true (conjunction inner) (conjunction inner') :=
  moves_leftAssociative rfl fun _ hj => moves_comparison fun i hi => hinner i (by omega)

theorem moves_disjunction : Moves k true (disjunction inner) (disjunction inner') :=
  moves_leftAssociative rfl fun _ hj => moves_conjunction fun i hi => hinner i (by omega)

end

/-! ## Whole expressions -/

theorem expressionWithin_eq (n : Nat) : expressionWithin n = disjunction^[n] (fail "expression") :=
  eq_iterate expressionWithin (fun _ => rfl) n

theorem moves_expressionWithin (n : Nat) : MovesOn k true (expressionWithin n) := by
  rw [expressionWithin_eq]
  refine iterate_related (R := fun k => Moves k true) (fun i hi inner inner' hinner => ?_) (fun _ _ => .fail) n k le_rfl
  exact moves_disjunction hinner

theorem moves_expression : MovesOn k true expression :=
  .remaining fun j _ => moves_expressionWithin (j + 1)

theorem moves_operand : MovesOn k true operand := moves_selection fun _ _ => moves_expression

end Parser

end ObjectAction
