/-
What a parser does with a stream that shows given lexemes: `Reads p taken rest post` says that `p`
takes exactly the lexemes `taken` where `rest` follows, and that its result satisfies `post`. The
lemmas for single steps and for sequences are all that the proofs about the grammar unfold.
-/
import ObjectAction.Proofs.Body.Lexeme

namespace ObjectAction

open Lexeme

/-! ## Streams -/

/-- The stream goes on with these lexemes up to the end of input. -/
def Stream.Shows (s : Stream) (ls : List Lexeme) : Prop :=
  s.tokens.map Token.bare = ls ∧ s.final.kind = .endOfInput

namespace Stream.Shows

variable {s : Stream} {l : Lexeme} {ls : List Lexeme}

theorem kindAt (h : s.Shows ls) (n : Nat) : s.kindAt n = headKind (ls.drop n) := by
  obtain ⟨rfl, hf⟩ := h
  unfold Stream.kindAt headKind
  rw [List.head?_drop, List.getElem?_map, Option.map_map]
  cases s.tokens[n]? with
  | none => exact hf
  | some t => rfl

theorem kind (h : s.Shows ls) : s.current.kind = headKind ls := by
  have h0 := h.kindAt 0
  rw [List.drop_zero] at h0
  rw [← h0]
  unfold Stream.current Stream.kindAt
  rw [List.head?_eq_getElem?]

theorem lexeme (h : s.Shows (l :: ls)) : s.current.lexeme = l.text := by
  obtain ⟨ht, _⟩ := h
  unfold Stream.current
  cases hs : s.tokens with
  | nil => rw [hs] at ht; cases ht
  | cons t rest =>
    rw [hs] at ht
    cases ht
    rfl

theorem tail (h : s.Shows (l :: ls)) : s.tail.Shows ls := by
  obtain ⟨ht, hf⟩ := h
  unfold Stream.tail
  cases hs : s.tokens with
  | nil => rw [hs] at ht; cases ht
  | cons t rest =>
    rw [hs] at ht
    cases ht
    exact ⟨rfl, hf⟩

theorem length (h : s.Shows ls) : s.tokens.length = ls.length := by
  rw [← h.1, List.length_map]

end Stream.Shows

namespace Parser

variable {α β : Type}

/-! ## Reading lexemes -/

/-- From every stream that shows `taken` and then `rest`, the parser takes `taken` and gives something
that satisfies `post`. -/
def Reads (p : Parser α) (taken rest : List Lexeme) (post : α → Prop) : Prop :=
  ∀ s : Stream, s.Shows (taken ++ rest) → ∃ a s', p s = .ok (a, s') ∧ post a ∧ s'.Shows rest

namespace Reads

variable {p : Parser α} {f : α → Parser β} {taken more rest : List Lexeme} {P : α → Prop} {Q : β → Prop}

theorem pure {a : α} (h : P a) : Reads (Pure.pure a) [] rest P :=
  fun s hs => ⟨a, s, rfl, h, hs⟩

theorem bind (hp : Reads p taken (more ++ rest) P) (hf : ∀ a, P a → Reads (f a) more rest Q) :
    Reads (p >>= f) (taken ++ more) rest Q := by
  intro s hs
  rw [List.append_assoc] at hs
  obtain ⟨a, s₁, h₁, ha, hs₁⟩ := hp s hs
  obtain ⟨b, s₂, h₂, hb, hs₂⟩ := hf a ha s₁ hs₁
  refine ⟨b, s₂, ?_, hb, hs₂⟩
  show (p s >>= fun x => f x.1 x.2) = _
  rw [h₁]
  exact h₂

theorem map {g : α → β} (hp : Reads p taken rest P) (h : ∀ a, P a → Q (g a)) : Reads (g <$> p) taken rest Q := by
  intro s hs
  obtain ⟨a, s', h₁, ha, hs'⟩ := hp s hs
  refine ⟨g a, s', ?_, h a ha, hs'⟩
  show (p s >>= fun x => Except.ok (g x.1, x.2)) = _
  rw [h₁]
  rfl

/-- A step that takes nothing. -/
theorem look (hp : Reads p [] (more ++ rest) P) (hf : ∀ a, P a → Reads (f a) more rest Q) :
    Reads (p >>= f) more rest Q :=
  bind hp hf

/-- A step that takes one lexeme. -/
theorem step {l : Lexeme} (hp : Reads p [l] (more ++ rest) P) (hf : ∀ a, P a → Reads (f a) more rest Q) :
    Reads (p >>= f) (l :: more) rest Q :=
  bind hp hf

/-- A step after which nothing more is taken. -/
theorem last (hp : Reads p taken rest P) (hf : ∀ a, P a → Reads (f a) [] rest Q) :
    Reads (p >>= f) taken rest Q := by
  rw [← List.append_nil taken]
  exact bind hp hf

end Reads

/-! ## Reaching a later step -/

/-- From every stream that shows `taken` and then `rest`, the parser takes `taken` and goes on as one of
the parsers `next`. This is how a repetition is followed from one pass to the next. -/
def Reaches (p : Parser α) (taken rest : List Lexeme) (next : Parser α → Prop) : Prop :=
  ∀ s : Stream, s.Shows (taken ++ rest) → ∃ q s', next q ∧ p s = q s' ∧ s'.Shows rest

namespace Reaches

variable {p : Parser α} {f : α → Parser β} {taken more rest : List Lexeme} {P : α → Prop}

theorem reads {next : Parser α → Prop} (hp : Reaches p taken (more ++ rest) next)
    (hq : ∀ q, next q → Reads q more rest P) : Reads p (taken ++ more) rest P := by
  intro s hs
  rw [List.append_assoc] at hs
  obtain ⟨q, s₁, hn, h₁, hs₁⟩ := hp s hs
  rw [h₁]
  exact hq q hn s₁ hs₁

theorem readsEnd {next : Parser α → Prop} (hp : Reaches p taken rest next)
    (hq : ∀ q, next q → Reads q [] rest P) : Reads p taken rest P := by
  rw [← List.append_nil taken]
  exact hp.reads hq

theorem trans {next next' : Parser α → Prop} (hp : Reaches p taken (more ++ rest) next)
    (hq : ∀ q, next q → Reaches q more rest next') : Reaches p (taken ++ more) rest next' := by
  intro s hs
  rw [List.append_assoc] at hs
  obtain ⟨q, s₁, hn, h₁, hs₁⟩ := hp s hs
  rw [h₁]
  exact hq q hn s₁ hs₁

theorem here {next : Parser α → Prop} (h : next p) : Reaches p [] rest next :=
  fun s hs => ⟨p, s, h, rfl, hs⟩

theorem bind {next : Parser β → Prop} (hp : Reads p taken (more ++ rest) P)
    (hf : ∀ a, P a → Reaches (f a) more rest next) : Reaches (p >>= f) (taken ++ more) rest next := by
  intro s hs
  rw [List.append_assoc] at hs
  obtain ⟨a, s₁, h₁, ha, hs₁⟩ := hp s hs
  obtain ⟨q, s₂, hn, h₂, hs₂⟩ := hf a ha s₁ hs₁
  refine ⟨q, s₂, hn, ?_, hs₂⟩
  show (p s >>= fun x => f x.1 x.2) = _
  rw [h₁]
  exact h₂

theorem look {next : Parser β → Prop} (hp : Reads p [] (more ++ rest) P)
    (hf : ∀ a, P a → Reaches (f a) more rest next) : Reaches (p >>= f) more rest next :=
  bind hp hf

theorem step {l : Lexeme} {next : Parser β → Prop} (hp : Reads p [l] (more ++ rest) P)
    (hf : ∀ a, P a → Reaches (f a) more rest next) : Reaches (p >>= f) (l :: more) rest next :=
  bind hp hf

theorem last {next : Parser β → Prop} (hp : Reads p taken rest P)
    (hf : ∀ a, P a → Reaches (f a) [] rest next) : Reaches (p >>= f) taken rest next := by
  rw [← List.append_nil taken]
  exact bind hp hf

end Reaches

/-! ## Single steps -/

section

variable {l : Lexeme} {rest : List Lexeme}

theorem reads_get : Reads get [] rest fun _ => True :=
  fun s hs => ⟨s, s, rfl, trivial, hs⟩

theorem reads_kind : Reads kind [] rest (· = headKind rest) :=
  fun s hs => ⟨_, s, rfl, hs.kind, hs⟩

theorem reads_kindAt (n : Nat) : Reads (kindAt n) [] rest (· = headKind (rest.drop n)) :=
  fun s hs => ⟨_, s, rfl, hs.kindAt n, hs⟩

theorem reads_mark : Reads mark [] rest fun _ => True :=
  fun s hs => ⟨_, s, rfl, trivial, hs⟩

theorem reads_remaining : Reads remaining [] rest (· = rest.length) :=
  fun s hs => ⟨_, s, rfl, hs.length, hs⟩

theorem reads_extentFrom (start : Text.Mark) : Reads (extentFrom start) [] rest fun _ => True :=
  fun s hs => ⟨_, s, rfl, trivial, hs⟩

theorem reads_advance : Reads advance [l] rest fun _ => True :=
  fun s hs => ⟨_, s.tail, rfl, trivial, hs.tail⟩

theorem reads_eat {p : Token.Kind → Bool} (h : p l.kind = true) : Reads (eat p) [l] rest (· = true) := by
  refine .look reads_kind ?_
  rintro _ rfl
  rw [List.cons_append, headKind_cons, if_pos h]
  exact .step reads_advance fun _ _ => .pure rfl

theorem reads_eat_other {p : Token.Kind → Bool} (h : p (headKind rest) = false) :
    Reads (eat p) [] rest (· = false) := by
  refine .look reads_kind ?_
  rintro _ rfl
  rw [List.nil_append, if_neg (by simp [h])]
  exact .pure rfl

theorem reads_expect {p : Token.Kind → Bool} {expected : String} (h : p l.kind = true) :
    Reads (expect p expected) [l] rest fun _ => True := by
  refine .step (reads_eat h) ?_
  rintro _ rfl
  exact .pure trivial

theorem reads_keyword {k : Keyword} {expected : String} :
    Reads (expectKeyword k expected) [.keyword k] rest fun _ => True :=
  reads_expect (by simp [isKeyword, Lexeme.keyword])

theorem reads_symbol {y : Symbol} {expected : String} :
    Reads (expectSymbol y expected) [.symbol y] rest fun _ => True :=
  reads_expect (by simp [isSymbol, Lexeme.symbol])

theorem reads_name {w expected : String} (h : Lexeme.isName w = true) :
    Reads (name expected) [.name w] rest (· = w) := by
  intro s hs
  have hk : isName (Lexeme.name w).kind = true := by
    simp only [Lexeme.isName, Bool.and_eq_true] at h
    exact h.2
  have hexpect : Reads (expect isName expected) [.name w] rest fun _ => True := reads_expect hk
  obtain ⟨_, s', h₁, _, hs'⟩ := hexpect s hs
  refine ⟨w, s', ?_, rfl, hs'⟩
  have hl : s.current.lexeme = w := hs.lexeme
  show (expect isName expected s >>= fun x => Except.ok (s.current.lexeme, x.2)) = _
  rw [h₁, hl]
  rfl

end

end Parser

end ObjectAction
