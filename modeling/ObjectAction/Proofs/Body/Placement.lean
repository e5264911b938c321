/-
Where nodes stand. The tokens of a stream stand one after another in its source. `LaysFrom start us p Q` says that
a parser that begins where the outlines `us` have been laid out since `start` leaves other outlines laid out, of
which `Q` holds: each covers what it says, and each ends where the next one begins or before. An extent wraps all
that was laid out since its start into one node.
-/
import ObjectAction.Body.Outline
import ObjectAction.Proofs.Body.Taking
import ObjectAction.Proofs.Token.Cut

namespace ObjectAction

open Text (Mark)

/-! ## Places in a text -/

namespace Text

/-- The place behind the first characters of a text: how many bytes they have, the number of the line, and how
many of them stand on this line. -/
def Mark.behind (before : List Char) : Mark :=
  ⟨(String.ofList before).utf8ByteSize, before.count '\n' + 1, (before.reverse.takeWhile (· ≠ '\n')).length⟩

theorem Mark.start_past (before : List Char) : Mark.start.past before = .behind before := by
  induction before using List.reverseRecOn with
  | nil => rfl
  | append_singleton before c ih =>
    have hbytes : (String.ofList (before ++ [c])).utf8ByteSize = (String.ofList before).utf8ByteSize + c.utf8Size := by
      rw [String.ofList_append, String.utf8ByteSize_append, ← String.singleton_eq_ofList, String.utf8ByteSize_singleton]
    rw [Mark.past_append, ih, Mark.past_cons, Mark.past_nil]
    unfold Mark.after Mark.behind
    rw [hbytes]
    by_cases hc : c = '\n'
    · simp [hc]
    · simp [hc]

/-- The place is one of the source. -/
def Mark.In (source : List Char) (m : Mark) : Prop := ∃ before after, source = before ++ after ∧ m = .behind before

/-- What stands between two places of a source. -/
theorem Mark.In.between {source : List Char} {m m' : Mark} (hm : m.In source) (hm' : m'.In source)
    (hle : m.offset ≤ m'.offset) : ∃ before inside after, source = before ++ inside ++ after ∧
      m = .behind before ∧ m' = .behind (before ++ inside) := by
  obtain ⟨before, rest, hsource, rfl⟩ := hm
  obtain ⟨before', rest', hsource', rfl⟩ := hm'
  rw [hsource] at hsource'
  rcases List.append_eq_append_iff.mp hsource' with ⟨inside, rfl, rfl⟩ | ⟨inside, rfl, rfl⟩
  · exact ⟨before, inside, rest', by rw [hsource, List.append_assoc], rfl, rfl⟩
  · -- the second place is not behind the first one, so nothing stands between them
    have hnone : inside = [] := by
      by_contra hne
      have hpos := utf8ByteSize_pos hne
      simp only [Mark.behind, String.ofList_append, String.utf8ByteSize_append] at hle
      omega
    subst hnone
    exact ⟨before', [], rest, by simpa using hsource, by simp, by simp⟩

theorem slice_behind (before inside after : List Char) :
    slice (before ++ inside ++ after) (Mark.behind before).offset (Mark.behind (before ++ inside)).offset = inside := by
  rw [← Mark.start_past, ← Mark.start_past, Mark.past_append]
  exact slice_past before inside after

end Text

/-! ## Extents and outlines -/

/-- The extent begins and ends at places of the source, and its text is what stands between them. -/
def Extent.Covers (source : List Char) (x : Extent) : Prop :=
  ∃ before inside after, source = before ++ inside ++ after ∧ x.start = .behind before ∧
    x.stop = .behind (before ++ inside) ∧ x.text = String.ofList inside

/-- Every node of an outline covers what its extent says, its children stand inside of it unless they are empty,
and each child ends before the next one begins. -/
inductive Outline.Faithful (source : List Char) : Outline → Prop
  | node {name : String} {x : Extent} {children : List Outline} (covers : x.Covers source)
      (faithful : ∀ o ∈ children, o.Faithful source)
      (inside : ∀ o ∈ children, o.extent.text ≠ "" →
        x.start.offset ≤ o.extent.start.offset ∧ o.extent.stop.offset ≤ x.stop.offset)
      (forward : children.Pairwise fun o o' => o.extent.stop.offset ≤ o'.extent.start.offset) :
      Faithful source (.node name x children)

namespace Stream

/-! ## Streams -/

/-- The tokens ahead stand in the source one after another, behind the token taken last. Before the first token is
taken, `previous` is no place. -/
structure Placed (s : Stream) : Prop where
  previous : s.previous.offset = 0 ∨ s.previous.In s.source
  start : ∀ t ∈ s.tokens ++ [s.final], t.start.In s.source ∧ s.previous.offset ≤ t.start.offset
  stop : ∀ t ∈ s.tokens, t.stop.In s.source ∧ t.start.offset ≤ t.stop.offset
  forward : (s.tokens ++ [s.final]).Pairwise fun t u => t.stop.offset ≤ u.start.offset

/-- A later stream of the same source. -/
structure Advances (s s' : Stream) : Prop where
  source : s'.source = s.source
  previous : s.previous.offset ≤ s'.previous.offset
  current : s.current.start.offset ≤ s'.current.start.offset

theorem Advances.refl (s : Stream) : s.Advances s := ⟨rfl, le_refl _, le_refl _⟩

theorem Advances.trans {s s₁ s₂ : Stream} (h₁ : s.Advances s₁) (h₂ : s₁.Advances s₂) : s.Advances s₂ :=
  ⟨h₂.source.trans h₁.source, h₁.previous.trans h₂.previous, h₁.current.trans h₂.current⟩

theorem current_mem (s : Stream) : s.current ∈ s.tokens ++ [s.final] := by
  unfold current
  cases s.tokens with
  | nil => simp
  | cons t rest => simp

theorem Placed.tail {s : Stream} (hs : s.Placed) : s.tail.Placed ∧ s.Advances s.tail := by
  obtain ⟨source, previous, tokens, final⟩ := s
  cases tokens with
  | nil => exact ⟨hs, .refl _⟩
  | cons t rest =>
    obtain ⟨hprevious, hstart, hstop, hforward⟩ := hs
    dsimp only at hprevious hstart hstop hforward
    rw [List.cons_append, List.pairwise_cons] at hforward
    obtain ⟨hnext, hforward⟩ := hforward
    obtain ⟨hin, hle⟩ := hstop t List.mem_cons_self
    have ht := (hstart t (by simp)).2
    have htail : (Stream.tail ⟨source, previous, t :: rest, final⟩).Placed := by
      refine ⟨.inr hin, fun u hu => ?_, fun u hu => hstop u (List.mem_cons_of_mem t hu), hforward⟩
      exact ⟨(hstart u (List.mem_cons_of_mem t hu)).1, hnext u hu⟩
    refine ⟨htail, rfl, ht.trans hle, ?_⟩
    exact hle.trans (htail.start _ (current_mem _)).2

/-- An extent covers what stands between its start and the token taken last. -/
theorem Placed.extentFrom {s : Stream} (hs : s.Placed) {start : Mark} (hstart : start.In s.source) :
    (s.extentFrom start).Covers s.source := by
  unfold Stream.extentFrom
  split
  · rename_i hlt
    have hprevious : s.previous.In s.source := hs.previous.resolve_left (by omega)
    obtain ⟨before, inside, after, hsource, hbefore, hinside⟩ := hstart.between hprevious (le_of_lt hlt)
    refine ⟨before, inside, after, hsource, hbefore, hinside, ?_⟩
    dsimp only
    rw [hsource, hbefore, hinside, Text.slice_behind]
  · obtain ⟨before, after, hsource, hbefore⟩ := hstart
    exact ⟨before, [], after, by simpa using hsource, hbefore, by simpa using hbefore, rfl⟩

/-! ## Outlines that are laid out -/

/-- The outlines stand one after another, from `start` up to the token ahead. -/
structure Laid (s : Stream) (start : Mark) (us : List Outline) : Prop where
  origin : start.In s.source
  ahead : start.offset ≤ s.current.start.offset
  faithful : ∀ o ∈ us, o.Faithful s.source
  forward : us.Pairwise fun o o' => o.extent.stop.offset ≤ o'.extent.start.offset
  bounds : ∀ o ∈ us, start.offset ≤ o.extent.start.offset ∧ o.extent.stop.offset ≤ s.current.start.offset
  taken : ∀ o ∈ us, o.extent.text ≠ "" → o.extent.stop.offset ≤ s.previous.offset

theorem Placed.laid_nil {s : Stream} (hs : s.Placed) : s.Laid s.current.start [] where
  origin := (hs.start _ s.current_mem).1
  ahead := le_refl _
  faithful := nofun
  forward := .nil
  bounds := nofun
  taken := nofun

theorem Laid.advance {s s' : Stream} {start : Mark} {us : List Outline} (h : s.Laid start us) (hs : s.Advances s') :
    s'.Laid start us where
  origin := hs.source ▸ h.origin
  ahead := h.ahead.trans hs.current
  faithful := hs.source ▸ h.faithful
  forward := h.forward
  bounds o ho := ⟨(h.bounds o ho).1, (h.bounds o ho).2.trans hs.current⟩
  taken o ho htext := (h.taken o ho htext).trans hs.previous

/-- Outlines behind others, from where the token ahead stood then. -/
theorem Laid.append {s s' : Stream} {start : Mark} {us vs : List Outline} (h : s.Laid start us)
    (hs : s.Advances s') (h' : s'.Laid s.current.start vs) : s'.Laid start (us ++ vs) := by
  have hus := h.advance hs
  refine ⟨hus.origin, hus.ahead, fun o ho => ?_, ?_, fun o ho => ?_, fun o ho htext => ?_⟩
  · rcases List.mem_append.mp ho with ho | ho
    · exact hus.faithful o ho
    · exact h'.faithful o ho
  · refine List.pairwise_append.mpr ⟨hus.forward, h'.forward, fun o ho o' ho' => ?_⟩
    exact (h.bounds o ho).2.trans (h'.bounds o' ho').1
  · rcases List.mem_append.mp ho with ho | ho
    · exact hus.bounds o ho
    · obtain ⟨hlow, hhigh⟩ := h'.bounds o ho
      exact ⟨h.ahead.trans hlow, hhigh⟩
  · rcases List.mem_append.mp ho with ho | ho
    · exact hus.taken o ho htext
    · exact h'.taken o ho htext

/-- All that was laid out since `start`, as the children of one node. -/
theorem Laid.node {s : Stream} {start : Mark} {us : List Outline} (h : s.Laid start us) (hs : s.Placed)
    (name : String) : s.Laid start [.node name (s.extentFrom start) us] := by
  have hcurrent := (hs.start _ s.current_mem).2
  have hahead := h.ahead
  have hbegin : (s.extentFrom start).start = start := by
    unfold Stream.extentFrom
    split <;> rfl
  have hend : (s.extentFrom start).stop.offset = max start.offset s.previous.offset := by
    unfold Stream.extentFrom
    split
    · show s.previous.offset = _
      omega
    · show start.offset = _
      omega
  have hnode : (Outline.node name (s.extentFrom start) us).Faithful s.source := by
    refine .node (hs.extentFrom h.origin) h.faithful (fun o ho htext => ?_) h.forward
    have hlow := (h.bounds o ho).1
    have hhigh := h.taken o ho htext
    rw [hbegin, hend]
    omega
  refine ⟨h.origin, hahead, ?_, List.pairwise_singleton _ _, ?_, ?_⟩
  · simpa using hnode
  · intro o ho
    rw [List.mem_singleton.mp ho]
    show start.offset ≤ (s.extentFrom start).start.offset ∧ (s.extentFrom start).stop.offset ≤ _
    rw [hbegin, hend]
    omega
  · intro o ho htext
    rw [List.mem_singleton.mp ho] at htext ⊢
    show (s.extentFrom start).stop.offset ≤ _
    -- an extent that is not empty ends with the token taken last
    unfold Outline.extent Stream.extentFrom at htext
    unfold Stream.extentFrom
    split
    · exact le_refl _
    · rename_i hnone
      rw [if_neg hnone] at htext
      exact absurd rfl htext

end Stream

namespace Parser

/-! ## Parsers that lay out outlines -/

variable {α β : Type}

/-- From where the outlines `us` have been laid out since `start`, the parser leaves outlines laid out of which `Q`
holds. -/
def LaysFrom (start : Mark) (us : List Outline) (p : Parser α) (Q : α → List Outline → Prop) : Prop :=
  ∀ s : Stream, s.Placed → s.Laid start us → ∀ a s', p s = .ok (a, s') →
    s'.Placed ∧ s.Advances s' ∧ ∃ vs, s'.Laid start vs ∧ Q a vs

/-- The parser lays out outlines of which `Q` holds. -/
def Lays (p : Parser α) (Q : α → List Outline → Prop) : Prop := ∀ start, LaysFrom start [] p Q

/-- The parser lays out no outline. -/
def LaysNone (p : Parser α) : Prop := Lays p fun _ us => us = []

variable {start : Mark} {us : List Outline} {p : Parser α} {f : α → Parser β} {P Q : α → List Outline → Prop}
  {R : β → List Outline → Prop}

theorem LaysFrom.pure {a : α} (h : Q a us) : LaysFrom start us (Pure.pure a) Q := by
  intro s hs hlaid b s' heq
  cases heq
  exact ⟨hs, .refl s, us, hlaid, h⟩

theorem LaysFrom.pure_bind {a : α} (hf : LaysFrom start us (f a) R) : LaysFrom start us (Pure.pure a >>= f) R := hf

theorem LaysFrom.bind (hp : LaysFrom start us p Q) (hf : ∀ a vs, Q a vs → LaysFrom start vs (f a) R) :
    LaysFrom start us (p >>= f) R := by
  intro s hs hlaid b s₂ h
  obtain ⟨a, s₁, h₁, h₂⟩ := ok_of_bind h
  obtain ⟨hs₁, hadvances₁, vs, hlaid₁, ha⟩ := hp s hs hlaid a s₁ h₁
  obtain ⟨hs₂, hadvances₂, ws, hlaid₂, hb⟩ := hf a vs ha s₁ hs₁ hlaid₁ b s₂ h₂
  exact ⟨hs₂, hadvances₁.trans hadvances₂, ws, hlaid₂, hb⟩

theorem LaysFrom.mono (hp : LaysFrom start us p P) (h : ∀ a vs, P a vs → Q a vs) : LaysFrom start us p Q := by
  intro s hs hlaid a s' heq
  obtain ⟨hs', hadvances, vs, hlaid', ha⟩ := hp s hs hlaid a s' heq
  exact ⟨hs', hadvances, vs, hlaid', h a vs ha⟩

theorem Lays.mono (hp : Lays p P) (h : ∀ a vs, P a vs → Q a vs) : Lays p Q := fun start => (hp start).mono h

/-- What is laid out behind `us` is added to it. -/
theorem Lays.frame (hp : Lays p Q) : LaysFrom start us p fun a vs => ∃ ws, vs = us ++ ws ∧ Q a ws := by
  intro s hs hlaid a s' heq
  obtain ⟨hs', hadvances, ws, hlaid', ha⟩ := hp s.current.start s hs hs.laid_nil a s' heq
  exact ⟨hs', hadvances, us ++ ws, hlaid.append hadvances hlaid', ws, rfl, ha⟩

/-- A parser and what follows it. -/
theorem LaysFrom.next (hp : Lays p Q) (hf : ∀ a ws, Q a ws → LaysFrom start (us ++ ws) (f a) R) :
    LaysFrom start us (p >>= f) R := by
  refine hp.frame.bind ?_
  rintro a _ ⟨ws, rfl, ha⟩
  exact hf a ws ha

/-- A step that lays out nothing. -/
theorem LaysFrom.step (hp : LaysNone p) (hf : ∀ a, LaysFrom start us (f a) R) : LaysFrom start us (p >>= f) R := by
  refine .next hp ?_
  rintro a _ rfl
  rw [List.append_nil]
  exact hf a

theorem LaysNone.bind (hp : LaysNone p) {f : α → Parser β} (hf : ∀ a, LaysNone (f a)) : LaysNone (p >>= f) :=
  fun start => .step hp fun a => hf a start

theorem LaysNone.pure (a : α) : LaysNone (Pure.pure a : Parser α) := fun _ => .pure rfl

theorem Lays.map {g : α → β} (hp : Lays p fun a vs => R (g a) vs) : Lays (g <$> p) R := by
  intro start s hs hlaid b s' h
  obtain ⟨a, s₁, h₁, h₂⟩ := ok_of_bind (f := fun a => Pure.pure (g a)) h
  cases h₂
  exact hp start s hs hlaid a _ h₁

theorem LaysFrom.failAt {t : Token} {expected : String} : LaysFrom start us (Parser.failAt t expected) Q := by
  intro s hs hlaid a s' h
  cases h

theorem LaysFrom.fail {expected : String} : LaysFrom start us (Parser.fail expected) Q := by
  intro s hs hlaid a s' h
  cases h

theorem LaysFrom.failAt_bind {t : Token} {expected : String} :
    LaysFrom start us (Parser.failAt t expected >>= f) R :=
  .bind (Q := fun _ _ => False) .failAt fun _ _ h => h.elim

theorem LaysFrom.fail_bind {expected : String} : LaysFrom start us (Parser.fail expected >>= f) R :=
  .bind (Q := fun _ _ => False) .fail fun _ _ h => h.elim

/-! ## Single steps -/

theorem laysNone_gets (g : Stream → α) : LaysNone (do return g (← MonadState.get)) := by
  intro start s hs hlaid a s' h
  cases h
  exact ⟨hs, .refl s, [], hlaid, rfl⟩

theorem laysNone_get : LaysNone (MonadState.get : Parser Stream) := laysNone_gets id

theorem laysNone_kind : LaysNone kind := laysNone_gets _

theorem laysNone_kindAt (n : Nat) : LaysNone (kindAt n) := laysNone_gets _

theorem laysNone_remaining : LaysNone remaining := laysNone_gets _

theorem laysNone_advance : LaysNone advance := by
  intro start s hs hlaid a s' h
  cases h
  obtain ⟨htail, hadvances⟩ := hs.tail
  exact ⟨htail, hadvances, [], hlaid.advance hadvances, rfl⟩

theorem laysNone_eat (q : Token.Kind → Bool) : LaysNone (eat q) := by
  refine laysNone_kind.bind fun k => ?_
  split
  · exact laysNone_advance.bind fun _ => .pure true
  · exact .pure false

theorem laysNone_eatKeyword (k : Keyword) : LaysNone (eatKeyword k) := laysNone_eat _

theorem laysNone_eatSymbol (y : Symbol) : LaysNone (eatSymbol y) := laysNone_eat _

theorem laysNone_expect (q : Token.Kind → Bool) (expected : String) : LaysNone (expect q expected) := by
  refine (laysNone_eat q).bind fun found => ?_
  cases found with
  | true => exact .pure ()
  | false => exact fun _ => .fail

theorem laysNone_keyword (k : Keyword) (expected : String) : LaysNone (expectKeyword k expected) :=
  laysNone_expect _ _

theorem laysNone_symbol (y : Symbol) (expected : String) : LaysNone (expectSymbol y expected) :=
  laysNone_expect _ _

theorem laysNone_name (expected : String) : LaysNone (name expected) :=
  laysNone_get.bind fun s => (laysNone_expect _ _).bind fun _ => .pure s.current.lexeme

/-- From the place of the token ahead. -/
theorem Lays.mark {f : Mark → Parser β} (hf : ∀ start, LaysFrom start [] (f start) R) : Lays (Parser.mark >>= f) R := by
  intro start s hs hlaid b s' h
  obtain ⟨hs', hadvances, vs, hlaid', hb⟩ := hf s.current.start s hs hs.laid_nil b s' h
  exact ⟨hs', hadvances, vs, hlaid.append hadvances hlaid', hb⟩

/-- An extent wraps what was laid out since its start. -/
theorem LaysFrom.extent (name : String) {f : Extent → Parser β}
    (hf : ∀ x, LaysFrom start [.node name x us] (f x) R) : LaysFrom start us (extentFrom start >>= f) R := by
  intro s hs hlaid b s' h
  exact hf (s.extentFrom start) s hs (hlaid.node hs name) b s' h

end Parser

end ObjectAction
