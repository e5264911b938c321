/-
What a parser takes from a stream when it succeeds: `Takes p Q` says that the tokens taken spell a word `w` of
terminals, and that `Q a w` holds of the result `a`. The lemmas for single steps hand each terminal on to what
follows the step, so that a parser's word is put together in the order of its steps.
-/
import ObjectAction.Proofs.Body.Grammar

namespace ObjectAction

/-! ## Streams -/

/-- The tokens ahead are the source texts they cover, and only the last token is the end of input. -/
structure Stream.Genuine (s : Stream) : Prop where
  final : s.final.kind = .endOfInput
  inner : ∀ t ∈ s.tokens, t.kind ≠ .endOfInput
  lexeme : ∀ t ∈ s.tokens, t.lexeme = t.sourceText s.source

namespace Stream

theorem Genuine.tokens_eq_nil {s : Stream} (hs : s.Genuine) (h : s.current.kind = .endOfInput) : s.tokens = [] := by
  unfold current at h
  cases htokens : s.tokens with
  | nil => rfl
  | cons t rest =>
    rw [htokens] at h
    exact absurd h (hs.inner t (by simp [htokens]))

/-- A later stream of the same source, which lacks the tokens `ts`. -/
structure Follows (s : Stream) (ts : List Token) (s' : Stream) : Prop where
  tokens : s.tokens = ts ++ s'.tokens
  source : s'.source = s.source
  final : s'.final = s.final

theorem Follows.genuine {s s' : Stream} {ts : List Token} (h : s.Follows ts s') (hs : s.Genuine) : s'.Genuine := by
  have hmem : ∀ t ∈ s'.tokens, t ∈ s.tokens := fun t ht => by
    rw [h.tokens]
    exact List.mem_append_right ts ht
  refine ⟨by rw [h.final]; exact hs.final, fun t ht => hs.inner t (hmem t ht), fun t ht => ?_⟩
  rw [h.source]
  exact hs.lexeme t (hmem t ht)

theorem Follows.trans {s s₁ s₂ : Stream} {ts us : List Token} (h₁ : s.Follows ts s₁) (h₂ : s₁.Follows us s₂) :
    s.Follows (ts ++ us) s₂ :=
  ⟨by rw [h₁.tokens, h₂.tokens, List.append_assoc], h₂.source.trans h₁.source, h₂.final.trans h₁.final⟩

/-- Unless the input ends, the token ahead can be taken. -/
theorem follows_tail {s : Stream} (hs : s.Genuine) (h : s.current.kind ≠ .endOfInput) :
    s.Follows [s.current] s.tail ∧ s.current ∈ s.tokens := by
  unfold current tail at *
  cases htokens : s.tokens with
  | nil =>
    rw [htokens] at h
    exact absurd hs.final h
  | cons t rest => exact ⟨⟨htokens, rfl, rfl⟩, List.mem_cons_self⟩

theorem kind_tail (s : Stream) : s.tail.current.kind = s.kindAt 1 := by
  unfold tail current kindAt
  cases htokens : s.tokens with
  | nil => simp [htokens]
  | cons t rest => simp [List.head?_eq_getElem?]

end Stream

namespace Parser

variable {α β : Type}

theorem ok_of_bind {p : Parser α} {f : α → Parser β} {s : Stream} {r : β × Stream} (h : (p >>= f) s = .ok r) :
    ∃ a s', p s = .ok (a, s') ∧ f a s' = .ok r := by
  change (p s >>= fun x => f x.1 x.2) = .ok r at h
  cases hp : p s with
  | error e =>
    rw [hp] at h
    cases h
  | ok x =>
    rw [hp] at h
    exact ⟨x.1, x.2, rfl, h⟩

/-! ## Taking words -/

/-- What the parser takes from `s` when it succeeds. -/
def TakesAt (s : Stream) (p : Parser α) (Q : α → List Terminal → Prop) : Prop :=
  ∀ a s', p s = .ok (a, s') →
    ∃ ts w, s.Follows ts s' ∧ List.Forall₂ (Terminal.Matches s.source) w ts ∧ Q a w

/-- What the parser takes from every stream when it succeeds. -/
def Takes (p : Parser α) (Q : α → List Terminal → Prop) : Prop := ∀ s : Stream, s.Genuine → TakesAt s p Q

variable {s : Stream} {p : Parser α} {f : α → Parser β} {P : α → List Terminal → Prop}
  {Q : α → List Terminal → Prop} {R : β → List Terminal → Prop}

theorem TakesAt.bind (hs : s.Genuine) (hp : TakesAt s p Q)
    (hf : ∀ a u, Q a u → Takes (f a) fun b w => R b (u ++ w)) : TakesAt s (p >>= f) R := by
  intro b s₂ h
  obtain ⟨a, s₁, h₁, h₂⟩ := ok_of_bind h
  obtain ⟨ts, u, hts, hu, ha⟩ := hp a s₁ h₁
  obtain ⟨us, w, hus, hw, hb⟩ := hf a u ha s₁ (hts.genuine hs) b s₂ h₂
  rw [hts.source] at hw
  exact ⟨ts ++ us, u ++ w, hts.trans hus, List.rel_append hu hw, hb⟩

theorem TakesAt.of_takes (hs : s.Genuine) (hp : Takes p Q) : TakesAt s p Q := hp s hs

/-- What is taken first stands where the stream did. -/
theorem TakesAt.first (hp : TakesAt s p Q) :
    TakesAt s p fun a w => Q a w ∧ ∀ x ∈ w.head?, x.Matches s.source s.current := by
  intro a s' h
  obtain ⟨ts, w, hts, hw, ha⟩ := hp a s' h
  refine ⟨ts, w, hts, hw, ha, ?_⟩
  cases hw with
  | nil => simp
  | @cons x t w ts hx hw =>
    intro y hy
    obtain rfl : x = y := by simpa using hy
    unfold Stream.current
    rw [hts.tokens]
    exact hx

theorem Takes.pure {a : α} (h : Q a []) : Takes (Pure.pure a) Q := by
  rintro s - b s' heq
  obtain ⟨rfl, rfl⟩ : a = b ∧ s = s' := by
    cases heq
    exact ⟨rfl, rfl⟩
  exact ⟨[], [], ⟨rfl, rfl, rfl⟩, .nil, h⟩

theorem Takes.bind (hp : Takes p Q) (hf : ∀ a u, Q a u → Takes (f a) fun b w => R b (u ++ w)) :
    Takes (p >>= f) R :=
  fun s hs => (hp s hs).bind hs hf

theorem Takes.pure_bind {a : α} (hf : Takes (f a) R) : Takes (Pure.pure a >>= f) R := hf

theorem Takes.mono (hp : Takes p P) (h : ∀ a w, P a w → Q a w) : Takes p Q := by
  intro s hs a s' heq
  obtain ⟨ts, w, hts, hw, ha⟩ := hp s hs a s' heq
  exact ⟨ts, w, hts, hw, h a w ha⟩

theorem Takes.map {g : α → β} (hp : Takes p fun a w => R (g a) w) : Takes (g <$> p) R := by
  intro s hs b s' h
  obtain ⟨a, s₁, h₁, h₂⟩ := ok_of_bind (f := fun a => Pure.pure (g a)) h
  obtain ⟨rfl, rfl⟩ : g a = b ∧ s₁ = s' := by
    cases h₂
    exact ⟨rfl, rfl⟩
  exact hp s hs a s₁ h₁

theorem Takes.failAt {t : Token} {expected : String} : Takes (Parser.failAt t expected) Q := by
  rintro s - a s' h
  cases h

theorem Takes.fail {expected : String} : Takes (Parser.fail expected) Q := by
  rintro s - a s' h
  cases h

/-! ## Looking ahead -/

/-- A step that takes nothing. -/
theorem Takes.look (hp : Takes p fun _ w => w = []) (hf : ∀ a, Takes (f a) R) : Takes (p >>= f) R := by
  refine hp.bind ?_
  rintro a _ rfl
  exact hf a

theorem takes_gets (g : Stream → α) : Takes (do return g (← MonadState.get)) fun _ w => w = [] := by
  rintro s - a s' h
  cases h
  exact ⟨[], [], ⟨rfl, rfl, rfl⟩, .nil, rfl⟩

theorem takes_mark : Takes mark fun _ w => w = [] := takes_gets _

theorem takes_remaining : Takes remaining fun _ w => w = [] := takes_gets _

theorem takes_extentFrom (start : Text.Mark) : Takes (extentFrom start) fun _ w => w = [] := takes_gets _

/-- What follows a look at the whole stream may depend on it. -/
theorem Takes.get {f : Stream → Parser β} (h : ∀ s, s.Genuine → TakesAt s (f s) R) : Takes (MonadState.get >>= f) R :=
  fun s hs => h s hs

theorem Takes.kind {f : Token.Kind → Parser β} (h : ∀ s, s.Genuine → TakesAt s (f s.current.kind) R) :
    Takes (Parser.kind >>= f) R :=
  fun s hs => h s hs

/-- The parser leaves the stream `s` as it is, and what it gives satisfies `P`. -/
def Peeks (s : Stream) (p : Parser α) (P : α → Prop) : Prop := ∀ a s', p s = .ok (a, s') → s' = s ∧ P a

theorem Peeks.pure {a : α} {P : α → Prop} (h : P a) : Peeks s (Pure.pure a) P := by
  intro b s' heq
  cases heq
  exact ⟨rfl, h⟩

theorem Peeks.kind {f : Token.Kind → Parser β} {P : β → Prop} (h : Peeks s (f s.current.kind) P) :
    Peeks s (Parser.kind >>= f) P :=
  h

theorem Peeks.kindAt {f : Token.Kind → Parser β} {n : Nat} {P : β → Prop} (h : Peeks s (f (s.kindAt n)) P) :
    Peeks s (Parser.kindAt n >>= f) P :=
  h

/-- A step that leaves the stream as it is. -/
theorem TakesAt.peek {P : α → Prop} (hp : Peeks s p P) (hf : ∀ a, P a → TakesAt s (f a) R) :
    TakesAt s (p >>= f) R := by
  intro b s₂ h
  obtain ⟨a, s₁, h₁, h₂⟩ := ok_of_bind h
  obtain ⟨rfl, ha⟩ := hp a s₁ h₁
  exact hf a ha b s₂ h₂

theorem TakesAt.kindAt {f : Token.Kind → Parser β} {n : Nat} (h : TakesAt s (f (s.kindAt n)) R) :
    TakesAt s (Parser.kindAt n >>= f) R :=
  h

/-! ## Taking tokens -/

/-- Takes the token ahead as a terminal that it matches, and goes on behind it. -/
theorem TakesAt.take {f : Unit → Parser β} (hs : s.Genuine) (hne : s.current.kind ≠ .endOfInput) {x : Terminal}
    (hx : x.Matches s.source s.current)
    (hf : s.tail.Genuine → TakesAt s.tail (f ()) fun b w => R b (x :: w)) :
    TakesAt s (Parser.advance >>= f) R := by
  intro b s₂ h
  obtain ⟨hfollows, -⟩ := Stream.follows_tail hs hne
  obtain ⟨us, w, hus, hw, hb⟩ := hf (hfollows.genuine hs) b s₂ h
  rw [hfollows.source] at hw
  exact ⟨_, _, hfollows.trans hus, .cons hx hw, hb⟩

theorem TakesAt.advance {f : Unit → Parser β} (hs : s.Genuine) {k : Token.Kind} (hk : s.current.kind = k)
    (hne : k ≠ .endOfInput) (hf : Takes (f ()) fun b w => R b (.kind k :: w)) :
    TakesAt s (Parser.advance >>= f) R :=
  take hs (hk ▸ hne) (x := .kind k) hk (hf _)

theorem isKeyword_iff {k : Keyword} {kind : Token.Kind} : isKeyword k kind = true ↔ kind = .keyword k := by
  unfold isKeyword
  split <;> simp_all

theorem isSymbol_iff {y : Symbol} {kind : Token.Kind} : isSymbol y kind = true ↔ kind = .symbol y := by
  unfold isSymbol
  split <;> simp_all

/-- Takes a token of the kind `k` if one stands ahead. -/
theorem takes_eat {q : Token.Kind → Bool} {k : Token.Kind} (hq : ∀ k', q k' = true ↔ k' = k)
    (hne : k ≠ .endOfInput) : Takes (eat q) fun b w => w = if b then [.kind k] else [] := by
  refine Takes.kind fun s hs => ?_
  split
  · rename_i hk
    exact TakesAt.advance hs ((hq _).mp hk) hne (.pure rfl)
  · exact .of_takes hs (.pure rfl)

/-- With a keyword ahead the parser goes on behind it, else where it is. -/
theorem Takes.eatKeyword {k : Keyword} {f : Bool → Parser β}
    (htrue : Takes (f true) fun b w => R b (.keyword k :: w)) (hfalse : Takes (f false) R) :
    Takes (Parser.eatKeyword k >>= f) R := by
  refine (takes_eat (fun _ => isKeyword_iff) nofun).bind ?_
  rintro b _ rfl
  cases b with
  | true => exact htrue
  | false => exact hfalse

theorem Takes.eatSymbol {y : Symbol} {f : Bool → Parser β}
    (htrue : Takes (f true) fun b w => R b (.symbol y :: w)) (hfalse : Takes (f false) R) :
    Takes (Parser.eatSymbol y >>= f) R := by
  refine (takes_eat (fun _ => isSymbol_iff) nofun).bind ?_
  rintro b _ rfl
  cases b with
  | true => exact htrue
  | false => exact hfalse

theorem takes_keyword {k : Keyword} {expected : String} :
    Takes (expectKeyword k expected) fun _ w => w = [.keyword k] :=
  Takes.eatKeyword (.pure rfl) .fail

theorem takes_symbol {y : Symbol} {expected : String} :
    Takes (expectSymbol y expected) fun _ w => w = [.symbol y] :=
  Takes.eatSymbol (.pure rfl) .fail

/-- A keyword, then the rest. -/
theorem Takes.keyword {k : Keyword} {expected : String} {f : Unit → Parser β}
    (hf : Takes (f ()) fun b w => R b (.keyword k :: w)) : Takes (expectKeyword k expected >>= f) R := by
  refine takes_keyword.bind ?_
  rintro _ _ rfl
  exact hf

/-- A symbol, then the rest. -/
theorem Takes.symbol {y : Symbol} {expected : String} {f : Unit → Parser β}
    (hf : Takes (f ()) fun b w => R b (.symbol y :: w)) : Takes (expectSymbol y expected >>= f) R := by
  refine takes_symbol.bind ?_
  rintro _ _ rfl
  exact hf

theorem matches_name {source : List Char} {t : Token} (hk : isName t.kind = true)
    (ht : t.lexeme = t.sourceText source) : (Terminal.name t.lexeme).Matches source t := by
  refine ⟨?_, ht.symm⟩
  cases h : t.kind with
  | identifier n => exact .inl ⟨n, rfl⟩
  | keyword k =>
    right
    refine ⟨k, rfl, ?_⟩
    simpa [h, isName, Keyword.isReserved] using hk
  | _ => simp [h, isName] at hk

theorem name_eq (s : Stream) (expected : String) : name expected s =
    if isName s.current.kind then .ok (s.current.lexeme, s.tail)
    else .error ⟨s.current.kind.text, expected, s.current.start.line, s.current.start.column⟩ := by
  have heat : eat isName s = if isName s.current.kind then Except.ok (true, s.tail) else .ok (false, s) := by
    change (if isName s.current.kind then (Parser.advance >>= fun _ => Pure.pure true : Parser Bool)
      else Pure.pure false) s = _
    split <;> rfl
  change ((eat isName s >>= fun x => (if x.1 then Pure.pure () else fail expected : Parser Unit) x.2) >>=
    fun x => .ok (s.current.lexeme, x.2)) = _
  rw [heat]
  split <;> rfl

/-- Where a name stands ahead, the rest goes on behind it. -/
theorem TakesAt.name {expected : String} {f : String → Parser β} (hs : s.Genuine)
    (hk : isName s.current.kind = true)
    (hf : s.tail.Genuine → TakesAt s.tail (f s.current.lexeme) fun b w => R b (.name s.current.lexeme :: w)) :
    TakesAt s (Parser.name expected >>= f) R := by
  have hne : s.current.kind ≠ .endOfInput := fun h => by simp [h, isName] at hk
  have hmem := (Stream.follows_tail hs hne).2
  have htake := TakesAt.take hs hne (matches_name hk (hs.lexeme _ hmem)) (f := fun _ => f s.current.lexeme) hf
  intro b s' h
  apply htake b s'
  change (Parser.name expected s >>= fun x => f x.1 x.2) = _ at h
  rw [name_eq, if_pos hk] at h
  exact h

/-- A name, then the rest. -/
theorem Takes.name {expected : String} {f : String → Parser β}
    (hf : ∀ n, Takes (f n) fun b w => R b (.name n :: w)) : Takes (Parser.name expected >>= f) R := by
  intro s hs
  by_cases hk : isName s.current.kind = true
  · exact TakesAt.name hs hk fun hs' => .of_takes hs' (hf _)
  · intro b s' h
    change (Parser.name expected s >>= fun x => f x.1 x.2) = _ at h
    rw [name_eq, if_neg hk] at h
    cases h

theorem takes_name {expected : String} : Takes (name expected) fun n w => w = [.name n] := by
  have h : Takes (name expected >>= Pure.pure) fun n w => w = [.name n] := .name fun n => .pure rfl
  rwa [bind_pure] at h

end Parser

end ObjectAction
