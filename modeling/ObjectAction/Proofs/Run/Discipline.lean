/-
The discipline that every step of a run obeys: the scopes below the newest one stay as they are, the
newest one keeps its blocks and their names, except that the innermost block may bind more, and the
activation keeps all but the result of the attribute that it computes. Faults do not break it, and only
some arise: none is one of the scopes, since a block is open wherever one is asked for.

All lemmas are about a pair of steps that give the same wherever a block is open. Mostly both are the
same step; they differ where a second evaluator is compared with the first.
-/
import ObjectAction.Proofs.Scope
import ObjectAction.Run.Operators
import ObjectAction.Run.Place

namespace ObjectAction

/-! ## States before and after a step -/

/-- The activation is the same, up to the result of its attribute and the `k` innermost loops. -/
structure Activation.Keeps (k : Nat) (a a' : Activation) : Prop where
  label : a'.label = a.label
  receiver : a'.receiver = a.receiver
  arguments : a'.arguments = a.arguments
  candidates : a'.candidates = a.candidates
  loops : a'.loops.drop k = a.loops.drop k

namespace Activation.Keeps

variable {k : Nat} {a a₁ a₂ : Activation}

theorem refl (k : Nat) (a : Activation) : Keeps k a a := ⟨rfl, rfl, rfl, rfl, rfl⟩

theorem trans (h₁ : Keeps k a a₁) (h₂ : Keeps k a₁ a₂) : Keeps k a a₂ :=
  ⟨h₂.label.trans h₁.label, h₂.receiver.trans h₁.receiver, h₂.arguments.trans h₁.arguments,
    h₂.candidates.trans h₁.candidates, h₂.loops.trans h₁.loops⟩

theorem weaken (h : Keeps 0 a a₁) : Keeps k a a₁ :=
  ⟨h.label, h.receiver, h.arguments, h.candidates, congrArg (List.drop k) h.loops⟩

end Activation.Keeps

/-- What every step does to the variables and the activation. -/
structure RunState.Extends (k : Nat) (s s' : RunState) : Prop where
  scopes : s.scopes.Extends s'.scopes
  activation : s.activation.Keeps k s'.activation

theorem RunState.Extends.trans {k : Nat} {s s₁ s₂ : RunState} (h₁ : s.Extends k s₁) (h₂ : s₁.Extends k s₂) :
    s.Extends k s₂ :=
  ⟨h₁.scopes.trans h₂.scopes, h₁.activation.trans h₂.activation⟩

/-- What a block does: no block that was open before binds another name. -/
structure RunState.Keeps (s s' : RunState) : Prop where
  scopes : s.scopes.Keeps s'.scopes
  activation : s.activation.Keeps 0 s'.activation

/-- What a body does: the variables are the same. -/
structure RunState.Restores (s s' : RunState) : Prop where
  scopes : s'.scopes = s.scopes
  activation : s.activation.Keeps 0 s'.activation

/-- What a call does: variables and activation are the same. -/
structure RunState.Same (s s' : RunState) : Prop where
  scopes : s'.scopes = s.scopes
  activation : s'.activation = s.activation

theorem RunState.Same.refl (s : RunState) : s.Same s := ⟨rfl, rfl⟩

theorem RunState.Same.trans {s s₁ s₂ : RunState} (h₁ : s.Same s₁) (h₂ : s₁.Same s₂) : s.Same s₂ :=
  ⟨h₂.scopes.trans h₁.scopes, h₂.activation.trans h₁.activation⟩

theorem RunState.Same.extends {k : Nat} {s s' : RunState} (h : s.Same s') (hs : s.scopes.Open) :
    s.Extends k s' := by
  refine ⟨?_, ?_⟩
  · rw [h.scopes]
    exact hs.extends_refl
  · rw [h.activation]
    exact .refl k _

/-- If the step ended, the state that it left satisfies `P`, and a fault is one of `F`. -/
def Outcome.Leaves {α : Type} (F : Fault → Bool) (P : RunState → Prop) : Outcome α → Prop
  | .done _ s => P s
  | .failed f s => F f = true ∧ P s
  | .exhausted => True

theorem Outcome.Leaves.mono {α : Type} {F : Fault → Bool} {P Q : RunState → Prop} {o : Outcome α}
    (h : o.Leaves F P) (hPQ : ∀ s, P s → Q s) : o.Leaves F Q := by
  cases o with
  | done a s => exact hPQ s h
  | failed f s => exact ⟨h.1, hPQ s h.2⟩
  | exhausted => trivial

theorem Outcome.Leaves.allow {α : Type} {F G : Fault → Bool} {P : RunState → Prop} {o : Outcome α}
    (h : o.Leaves F P) (hFG : ∀ f, F f = true → G f = true) : o.Leaves G P := by
  cases o with
  | done a s => exact h
  | failed f s => exact ⟨hFG f h.1, h.2⟩
  | exhausted => trivial

namespace Run

open Fault (isRecoverable)

variable {α β : Type} {F G : Fault → Bool} {k : Nat}

/-- From `s` the two steps give the same. If they end, the state that they leave satisfies `P`, and a fault is
one of `F`. -/
structure Obeys (F : Fault → Bool) (P : RunState → Prop) (x y : Run α) (s : RunState) : Prop where
  same : y s = x s
  leaves : (x s).Leaves F P

/-- What the two steps do where a block is open. -/
def Disciplined (F : Fault → Bool) (k : Nat) (x y : Run α) : Prop :=
  ∀ s, s.scopes.Open → Obeys F (s.Extends k) x y s

/-- What the two steps do where a scope is open. -/
def KeepsNames (F : Fault → Bool) (x y : Run α) : Prop :=
  ∀ s, s.scopes.stack ≠ [] → Obeys F s.Keeps x y s

def Restores (F : Fault → Bool) (x y : Run α) : Prop := ∀ s, Obeys F s.Restores x y s

def Quiet (F : Fault → Bool) (x y : Run α) : Prop := ∀ s, Obeys F s.Same x y s

/-! ## Weakening -/

theorem Obeys.mono {P Q : RunState → Prop} {x y : Run α} {s : RunState} (h : Obeys F P x y s)
    (hPQ : ∀ s', P s' → Q s') : Obeys F Q x y s :=
  ⟨h.same, h.leaves.mono hPQ⟩

theorem Quiet.disciplined {x y : Run α} (h : Quiet F x y) : Disciplined F k x y :=
  fun s hs => (h s).mono fun _ hsame => hsame.extends hs

theorem KeepsNames.disciplined {x y : Run α} (h : KeepsNames F x y) : Disciplined F 0 x y :=
  fun s hs => (h s hs.stack_ne_nil).mono fun _ h' => ⟨h'.scopes.extends hs, h'.activation⟩

theorem Disciplined.weaken {x y : Run α} (h : Disciplined F 0 x y) : Disciplined F k x y :=
  fun s hs => (h s hs).mono fun _ h' => ⟨h'.scopes, h'.activation.weaken⟩

theorem Disciplined.allow {x y : Run α} (h : Disciplined F k x y) (hFG : ∀ f, F f = true → G f = true) :
    Disciplined G k x y :=
  fun s hs => ⟨(h s hs).same, (h s hs).leaves.allow hFG⟩

theorem Quiet.allow {x y : Run α} (h : Quiet F x y) (hFG : ∀ f, F f = true → G f = true) : Quiet G x y :=
  fun s => ⟨(h s).same, (h s).leaves.allow hFG⟩

/-! ## Sequences -/

theorem bind_done {x : Run α} {f : α → Run β} {s s' : RunState} {a : α} (h : x s = .done a s') :
    (x >>= f) s = f a s' := by
  show Run.bind x f s = _
  unfold Run.bind
  rw [h]

theorem bind_failed {x : Run α} {f : α → Run β} {s s' : RunState} {e : Fault} (h : x s = .failed e s') :
    (x >>= f) s = .failed e s' := by
  show Run.bind x f s = _
  unfold Run.bind
  rw [h]

theorem ask_ok {f : Population → Except PopulationError α} {s : RunState} {a : α} (h : f s.population = .ok a) :
    ask f s = .done a s := by
  simp only [ask, h]

theorem ask_error {f : Population → Except PopulationError α} {s : RunState} {e : PopulationError}
    (h : f s.population = .error e) : ask f s = .failed (.population e) s := by
  simp only [ask, h]

theorem Obeys.bind {P : RunState → Prop} {x y : Run α} {f g : α → Run β} {s : RunState} (hx : Obeys F P x y s)
    (hf : ∀ a s₁, P s₁ → Obeys F P (f a) (g a) s₁) : Obeys F P (x >>= f) (y >>= g) s := by
  obtain ⟨hsame, hleaves⟩ := hx
  show Obeys F P (Run.bind x f) (Run.bind y g) s
  refine ⟨?_, ?_⟩ <;> unfold Run.bind
  · rw [hsame]
    cases hxs : x s with
    | done a s₁ =>
      rw [hxs] at hleaves
      exact (hf a s₁ hleaves).same
    | failed e s₁ => rfl
    | exhausted => rfl
  · cases hxs : x s with
    | done a s₁ =>
      rw [hxs] at hleaves
      exact (hf a s₁ hleaves).leaves
    | failed e s₁ =>
      rw [hxs] at hleaves
      exact hleaves
    | exhausted => trivial

theorem Disciplined.bind {x y : Run α} {f g : α → Run β} (hx : Disciplined F k x y)
    (hf : ∀ a, Disciplined F k (f a) (g a)) : Disciplined F k (x >>= f) (y >>= g) := by
  intro s hs
  refine (hx s hs).bind fun a s₁ h₁ => ?_
  exact (hf a s₁ h₁.scopes.open).mono fun s₂ h₂ => h₁.trans h₂

theorem Quiet.bind {x y : Run α} {f g : α → Run β} (hx : Quiet F x y) (hf : ∀ a, Quiet F (f a) (g a)) :
    Quiet F (x >>= f) (y >>= g) := by
  intro s
  refine (hx s).bind fun a s₁ h₁ => ?_
  exact (hf a s₁).mono fun s₂ h₂ => h₁.trans h₂

/-- A body goes on after its block without touching anything. -/
theorem Restores.bind {x y : Run α} {f g : α → Run β} (hx : Restores F x y) (hf : ∀ a, Quiet F (f a) (g a)) :
    Restores F (x >>= f) (y >>= g) := by
  intro s
  refine (hx s).bind fun a s₁ h₁ => ?_
  exact (hf a s₁).mono fun s₂ h₂ => ⟨h₂.scopes.trans h₁.scopes, h₂.activation ▸ h₁.activation⟩

/-! ## Results that are computed from values -/

/-- The run can go on after the fault, if it is one. -/
def Recoverable (r : Except Fault α) : Prop := ∀ f, r = .error f → f.isRecoverable = true

theorem recoverable_ok (a : α) : Recoverable (.ok a) := nofun

theorem recoverable_error {f : Fault} (h : f.isRecoverable = true) : Recoverable (.error f : Except Fault α) := by
  rintro f' ⟨⟩
  exact h

theorem Recoverable.bind {r : Except Fault α} {g : α → Except Fault β} (h : Recoverable r)
    (hg : ∀ a, Recoverable (g a)) : Recoverable (r >>= g) := by
  cases r with
  | ok a => exact hg a
  | error f => exact recoverable_error (h f rfl)

theorem checked_recoverable (op : BinaryOperator) (n : Int) : Recoverable (checked op n) := by
  unfold checked
  split
  · exact recoverable_ok _
  · exact recoverable_error rfl

theorem integerDivision_recoverable (op : BinaryOperator) (a b : Int) : Recoverable (integerDivision op a b) := by
  unfold integerDivision
  split
  · exact recoverable_error rfl
  · refine (checked_recoverable op _).bind fun quotient => ?_
    split
    · exact checked_recoverable op _
    · exact recoverable_ok quotient

theorem realDivision_recoverable (op : BinaryOperator) (x y : Float) : Recoverable (realDivision op x y) := by
  unfold realDivision
  split
  · exact recoverable_error rfl
  · exact recoverable_ok _

theorem arithmetic_recoverable (op : BinaryOperator) {onIntegers : Int → Int → Except Fault Value}
    {onReals : Float → Float → Except Fault Value} (hi : ∀ a b, Recoverable (onIntegers a b))
    (hr : ∀ x y, Recoverable (onReals x y)) (left right : Value) :
    Recoverable (arithmetic op onIntegers onReals left right) := by
  unfold arithmetic
  split
  · exact hi _ _
  · split
    · exact hr _ _
    · exact recoverable_error rfl

theorem compare_recoverable (op : BinaryOperator) (left right : Value) : Recoverable (compare op left right) := by
  unfold compare
  split
  · exact recoverable_ok _
  · exact recoverable_ok _
  · split
    · exact recoverable_ok _
    · exact recoverable_error rfl

theorem add_recoverable (left right : Value) : Recoverable (add left right) := by
  unfold add
  split
  · exact recoverable_ok _
  · exact arithmetic_recoverable .add (fun _ _ => checked_recoverable .add _) (fun _ _ => recoverable_ok _) _ _

theorem binary_recoverable (op : BinaryOperator) (left right : Value) : Recoverable (binary op left right) := by
  have hchecked : ∀ g : Int → Int → Int, ∀ a b, Recoverable (checked op (g a b)) :=
    fun g a b => checked_recoverable op (g a b)
  cases op with
  | and | or | equal | notEqual => exact recoverable_ok _
  | less | lessEq | greater | greaterEq => exact compare_recoverable _ left right
  | add => exact add_recoverable left right
  | sub => exact arithmetic_recoverable _ (hchecked _) (fun _ _ => recoverable_ok _) left right
  | mul => exact arithmetic_recoverable _ (hchecked _) (fun _ _ => recoverable_ok _) left right
  | div | rem =>
    exact arithmetic_recoverable _ (integerDivision_recoverable _) (realDivision_recoverable _) left right

theorem negate_recoverable (v : Value) : Recoverable (negate v) := by
  unfold negate
  split
  · split
    · exact recoverable_ok _
    · exact recoverable_error rfl
  · exact recoverable_ok _
  · exact recoverable_error rfl

theorem affirm_recoverable (v : Value) : Recoverable (affirm v) := by
  unfold affirm
  split
  · exact recoverable_ok _
  · exact recoverable_ok _
  · exact recoverable_error rfl

theorem growTo_recoverable (items : List Value) (position : Nat) : Recoverable (growTo items position) := by
  unfold growTo
  split
  · exact recoverable_ok _
  · split
    · exact recoverable_ok _
    · exact recoverable_error rfl

theorem store_recoverable (items : List Value) (position : Nat) (v : Value) :
    Recoverable (store items position v) :=
  (growTo_recoverable items position).bind fun _ => recoverable_ok _

theorem elements_recoverable (v : Value) : Recoverable (elements v) := by
  unfold elements
  split
  · exact recoverable_ok _
  · exact recoverable_ok _
  · exact recoverable_error rfl

/-! ## Steps that leave variables and activation alone -/

theorem quiet_pure (a : α) : Quiet F (Pure.pure a : Run α) (Pure.pure a) := fun s => ⟨rfl, .refl s⟩

theorem quiet_exhausted : Quiet F (exhausted : Run α) exhausted := fun _ => ⟨rfl, trivial⟩

theorem quiet_fail {f : Fault} (h : F f = true) : Quiet F (fail f : Run α) (fail f) :=
  fun s => ⟨rfl, h, .refl s⟩

theorem quiet_look (f : RunState → α) : Quiet F (look f) (look f) := fun s => ⟨rfl, .refl s⟩

theorem quiet_note (n : Notice) : Quiet F (note n) (note n) := fun _ => ⟨rfl, rfl, rfl⟩

theorem quiet_ofExcept {r : Except Fault α} (h : Recoverable r) : Quiet isRecoverable (ofExcept r) (ofExcept r) := by
  cases r with
  | ok a => exact quiet_pure a
  | error f => exact quiet_fail (h f rfl)

theorem quiet_ask (f : Population → Except PopulationError α) : Quiet isRecoverable (ask f) (ask f) := by
  intro s
  refine ⟨rfl, ?_⟩
  cases h : f s.population with
  | ok a =>
    rw [ask_ok h]
    exact .refl s
  | error e =>
    rw [ask_error h]
    exact ⟨rfl, .refl s⟩

theorem quiet_perform (f : Population → Except PopulationError (α × Population)) :
    Quiet isRecoverable (perform f) (perform f) := by
  intro s
  refine ⟨rfl, ?_⟩
  unfold perform
  cases f s.population with
  | ok r => exact ⟨rfl, rfl⟩
  | error e => exact ⟨rfl, .refl s⟩

theorem quiet_change (f : Population → Except PopulationError Population) : Quiet isRecoverable (change f) (change f) :=
  quiet_perform _

theorem quiet_report (line : Nat) (f : Fault) : Quiet F (report line f) (report line f) :=
  .bind (quiet_look _) fun _ => quiet_note _

theorem quiet_readVariable (name : String) : Quiet isRecoverable (readVariable name) (readVariable name) :=
  .bind (quiet_look _) fun _ => quiet_ask _

theorem quiet_expectRef (v : Value) : Quiet isRecoverable (expectRef v) (expectRef v) := by
  unfold expectRef
  split
  · exact quiet_pure _
  · exact quiet_fail rfl

theorem quiet_expectInstances (expected : String) (v : Value) :
    Quiet isRecoverable (expectInstances expected v) (expectInstances expected v) := by
  unfold expectInstances
  split
  · exact quiet_pure _
  · exact quiet_fail rfl

theorem quiet_readRef (name : String) : Quiet isRecoverable (readRef name) (readRef name) :=
  .bind (quiet_readVariable name) fun v => quiet_expectRef v

theorem quiet_receiver : Quiet isRecoverable receiver receiver := by
  refine .bind (quiet_look _) fun r => ?_
  cases r with
  | some r => exact quiet_pure r
  | none => exact quiet_fail rfl

theorem quiet_selected : Quiet isRecoverable selected selected := by
  refine .bind (quiet_look _) fun r => ?_
  cases r with
  | some r => exact quiet_pure r
  | none => exact quiet_fail rfl

/-! ## Recovering, and steps inside something that is left again -/

theorem Disciplined.recover {x y : Run α} {p : Fault → Bool} {rest : Fault → Run α} (hx : Disciplined F k x y)
    (hrest : ∀ f, Disciplined G k (rest f) (rest f)) (h : ∀ f, F f = true → p f = false → G f = true) :
    Disciplined G k (recover x p rest) (recover y p rest) := by
  intro s hs
  obtain ⟨hsame, hleaves⟩ := hx s hs
  unfold Run.recover
  refine ⟨by rw [hsame], ?_⟩
  cases hxs : x s with
  | done a s₁ =>
    rw [hxs] at hleaves
    exact hleaves
  | failed f s₁ =>
    rw [hxs] at hleaves
    obtain ⟨hf, hextends⟩ := hleaves
    cases hp : p f with
    | true =>
      simp only [hp, if_true]
      exact (hrest f s₁ hextends.scopes.open).leaves.mono fun s₂ h₂ => hextends.trans h₂
    | false =>
      simp only [hp]
      exact ⟨h f hf hp, hextends⟩
  | exhausted => trivial

/-- The activation that is left is the one before, if leaving undoes entering. -/
theorem Disciplined.between {j : Nat} {x y : Run α} {enter leave : Activation → Activation}
    (hx : Disciplined F j x y) (h : ∀ a a', (enter a).Keeps j a' → a.Keeps k (leave a')) :
    Disciplined F k (between enter leave x) (between enter leave y) := by
  intro s hs
  obtain ⟨hsame, hleaves⟩ := hx { s with activation := enter s.activation } hs
  unfold Run.between
  refine ⟨by rw [hsame], ?_⟩
  cases hxs : x { s with activation := enter s.activation } with
  | done a s₁ =>
    rw [hxs] at hleaves
    exact ⟨hleaves.scopes, h _ _ hleaves.activation⟩
  | failed f s₁ =>
    rw [hxs] at hleaves
    exact ⟨hleaves.1, hleaves.2.scopes, h _ _ hleaves.2.activation⟩
  | exhausted => trivial

theorem Disciplined.withCandidate {x y : Run α} (hx : Disciplined F k x y) (r : InstanceRef) :
    Disciplined F k (withCandidate r x) (withCandidate r y) :=
  hx.between fun _ _ h => ⟨h.label, h.receiver, h.arguments, congrArg List.tail h.candidates, h.loops⟩

/-- Inside a loop its cursor may move. -/
theorem Disciplined.withLoop {x y : Run α} (hx : Disciplined F 1 x y) (c : LoopCursor) :
    Disciplined F 0 (withLoop c x) (withLoop c y) := by
  refine hx.between fun a a' h => ⟨h.label, h.receiver, h.arguments, h.candidates, ?_⟩
  show a'.loops.tail = a.loops
  rw [← List.drop_one, h.loops]
  rfl

theorem disciplined_setPass (index : Nat) : Disciplined F 1 (setPass index) (setPass index) := by
  rintro ⟨p, scopes, ⟨label, receiver, arguments, derived, candidates, loops⟩, journal⟩ hs
  refine ⟨rfl, ?_⟩
  cases loops with
  | nil => exact (RunState.Same.refl _).extends hs
  | cons c outer => exact ⟨hs.extends_refl, rfl, rfl, rfl, rfl, rfl⟩

/-- What a block binds is dropped with it. -/
theorem Disciplined.inBlock {x y : Run α} (hx : Disciplined F 0 x y) : KeepsNames F (inBlock x) (inBlock y) := by
  rintro ⟨p, ⟨stack⟩, a, j⟩ hs
  obtain ⟨sc, outer, rfl⟩ := List.exists_cons_of_ne_nil hs
  obtain ⟨hsame, hleaves⟩ := hx ⟨p, ⟨([] :: sc) :: outer⟩, a, j⟩ ⟨_, _, _, rfl⟩
  unfold Run.inBlock
  -- names can only have been added to the new block, which is the innermost one
  refine ⟨?_, ?_⟩ <;> dsimp only [Scopes.enterBlock]
  · rw [hsame]
  cases hxs : x ⟨p, ⟨([] :: sc) :: outer⟩, a, j⟩ with
  | done v s₁ =>
    rw [hxs] at hleaves
    obtain ⟨b, t, ht, hkeeps⟩ := Scopes.leaveBlock_keeps hleaves.scopes
    dsimp only
    rw [ht]
    exact ⟨hkeeps, hleaves.activation⟩
  | failed f s₁ =>
    rw [hxs] at hleaves
    obtain ⟨b, t, ht, hkeeps⟩ := Scopes.leaveBlock_keeps hleaves.2.scopes
    dsimp only
    rw [ht]
    exact ⟨hleaves.1, hkeeps, hleaves.2.activation⟩
  | exhausted => trivial

/-- A scope is dropped with all that it binds. -/
theorem KeepsNames.inScope {x y : Run α} (hx : KeepsNames F x y) : Restores F (inScope x) (inScope y) := by
  intro s
  obtain ⟨hsame, hleaves⟩ := hx { s with scopes := s.scopes.enterScope } (List.cons_ne_nil _ _)
  unfold Run.inScope
  refine ⟨by rw [hsame], ?_⟩
  cases hxs : x { s with scopes := s.scopes.enterScope } with
  | done v s₁ =>
    rw [hxs] at hleaves
    obtain ⟨bindings, hleave⟩ := Scopes.leaveScope_eq hleaves.scopes
    simp only [hleave]
    exact ⟨rfl, hleaves.activation⟩
  | failed f s₁ =>
    rw [hxs] at hleaves
    obtain ⟨bindings, hleave⟩ := Scopes.leaveScope_eq hleaves.2.scopes
    simp only [hleave]
    exact ⟨hleaves.1, rfl, hleaves.2.activation⟩
  | exhausted => trivial

/-- Another activation is left for the one before. -/
theorem Restores.within {x y : Run α} (hx : Restores F x y) (a : Activation) :
    Quiet F (within a x) (within a y) := by
  intro s
  obtain ⟨hsame, hleaves⟩ := hx { s with activation := a }
  unfold Run.within Run.between
  refine ⟨by rw [hsame], ?_⟩
  cases hxs : x { s with activation := a } with
  | done v s₁ =>
    rw [hxs] at hleaves
    exact ⟨hleaves.scopes, rfl⟩
  | failed f s₁ =>
    rw [hxs] at hleaves
    exact ⟨hleaves.1, hleaves.2.scopes, rfl⟩
  | exhausted => trivial

/-! ## Variables -/

theorem changeScopes_ok {f : Scopes → Except ScopeError (α × Scopes)} {s : RunState} {a : α} {t : Scopes}
    (h : f s.scopes = .ok (a, t)) : changeScopes f s = .done a { s with scopes := t } := by
  unfold changeScopes
  rw [h]

theorem disciplined_install (name : String) (v : Value) : Disciplined F k (install name v) (install name v) := by
  intro s hs
  obtain ⟨t, ht, hextends⟩ := Scopes.install_extends hs name v
  have hdone : install name v s = .done () { s with scopes := t } :=
    changeScopes_ok (congrArg (Except.map ((), ·)) ht)
  refine ⟨rfl, ?_⟩
  rw [hdone]
  exact ⟨hextends, .refl k _⟩

/-! ## Arrays -/

/-- The slot of an array is found or made in an open block, unless the variable is no array. -/
theorem arraySlot_cases {s : RunState} (hs : s.scopes.Open) (name : String) :
    (∃ x items s', arraySlot name s = .done (x, items) s' ∧ s.Extends k s' ∧ s'.scopes.Binds x) ∨
    ∃ f s', arraySlot name s = .failed f s' ∧ f.isRecoverable = true ∧ s.Extends k s' := by
  obtain ⟨x, t, ht, hextends, hbinds⟩ := Scopes.slot_extends hs name (.array [])
  have hslot : arraySlot name s = (do
      let items ← ofExcept (elements (t.read x))
      Run.modify fun s => { s with scopes := s.scopes.write x (.array items) }
      return (x, items)) { s with scopes := t } := by
    show Run.bind (changeScopes _) _ s = _
    unfold Run.bind
    rw [changeScopes_ok ht]
    rfl
  rw [hslot]
  cases he : elements (t.read x) with
  | ok items =>
    obtain ⟨hkeeps, hbinds'⟩ := Scopes.write_keeps hbinds (.array items)
    exact .inl ⟨x, items, _, rfl, ⟨hextends.trans (hkeeps.extends hextends.open), .refl k _⟩, hbinds'⟩
  | error f => exact .inr ⟨f, _, rfl, elements_recoverable _ f he, hextends, .refl k _⟩

/-- Writing an array into a slot that is bound. -/
theorem writeArray_extends {s : RunState} {x : Slot} (hs : s.scopes.Open) (h : s.scopes.Binds x)
    (items : List Value) : ∃ s', writeArray x items s = .done () s' ∧ s.Extends k s' :=
  ⟨_, rfl, (Scopes.write_keeps h (.array items)).1.extends hs, .refl k _⟩

/-- A variable that is used as an array: its elements are computed from those that it has, and written back
through its slot. -/
def updateArray (name : String) (g : List Value → Except Fault (List Value)) (h : List Value → α) : Run α := do
  let (x, items) ← arraySlot name
  let items' ← ofExcept (g items)
  writeArray x items'
  return h items'

theorem disciplined_updateArray (name : String) {g : List Value → Except Fault (List Value)}
    (hg : ∀ items, Recoverable (g items)) (h : List Value → α) :
    Disciplined isRecoverable k (updateArray name g h) (updateArray name g h) := by
  intro s hs
  refine ⟨rfl, ?_⟩
  show (Run.bind (arraySlot name) _ s).Leaves isRecoverable _
  unfold Run.bind
  rcases arraySlot_cases (k := k) hs name with ⟨x, items, s₁, hslot, hextends, hbinds⟩ | ⟨f, s₁, hslot, hf, hextends⟩
  · rw [hslot]
    dsimp only
    cases he : g items with
    | ok items' =>
      -- nothing happened to the scopes in between, so the slot is still bound
      obtain ⟨s₂, hwrite, hextends₂⟩ := writeArray_extends (k := k) hextends.scopes.open hbinds items'
      show (Run.bind (writeArray x items') (fun _ => Pure.pure (h items')) s₁).Leaves isRecoverable _
      unfold Run.bind
      rw [hwrite]
      exact hextends.trans hextends₂
    | error f => exact ⟨hg items f he, hextends⟩
  · rw [hslot]
    exact ⟨hf, hextends⟩

/-! ## Places -/

/-- What the attribute is that the running body computes, as far as it is computed. -/
def computed (s : RunState) : Value := (s.activation.derived.map (·.result)).getD .null

/-- An index of anything but a variable only reads what it is an index of. -/
theorem get_index (derive : Action → InstanceRef → String → Run Value) {base : Place}
    (h : ∀ name, base ≠ .var name) (position : Nat) :
    get derive (.index base position) = do
      let items ← ofExcept (elements (← get derive base))
      return items.getD position .null := by
  cases base with
  | var name => exact absurd rfl (h name)
  | value v => rfl
  | field r name => rfl
  | index base position => rfl
  | derived => rfl

theorem set_index (derive : Action → InstanceRef → String → Run Value) {base : Place}
    (h : ∀ name, base ≠ .var name) (position : Nat) (v : Value) :
    set derive (.index base position) v = (do
      let items ← ofExcept (elements (← get derive base))
      set derive base (.array (← ofExcept (store items position v)))) := by
  cases base with
  | var name => exact absurd rfl (h name)
  | value v => rfl
  | field r name => rfl
  | index base position => rfl
  | derived => rfl

end Run

end ObjectAction
