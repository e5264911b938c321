/-
Where an activation is in its loops. What a body does leaves the loops around it as they are, whatever happens in it:
a loop of its own is left again, and what it calls has loops of its own. So while a loop over some variable runs,
`first` and `last` speak of this loop at every point, but for those inside of a further loop over a variable of the
same name.

The points of a step are taken from a record of it in which a call is one step, and so is a further loop over the
variable (`ownEval`, `ownExec`). Main statement: `apart_run`.
-/
import ObjectAction.Proofs.Run.Record

namespace ObjectAction

/-- The innermost loop over a variable. -/
def RunState.cursor (s : RunState) (set : String) : Option LoopCursor := s.activation.loops.find? (·.set = set)

/-- Whether the statement is a loop over the variable. -/
def Statement.loopsOver (set : String) : Statement → Bool
  | forEach _ _ name _ => name = set
  | _ => false

namespace Run

open Fault (isRecoverable)

variable {α β : Type} {F : Fault → Bool} {S : String}

/-! ## Points of a step -/

/-- What happens in the evaluation of an expression, where a body that is called is one step. -/
def ownEval (host : Host) : (fuel : Nat) → Origin → (e : Expression) → Record (eval host fuel e)
  | 0, _, _ => .step _
  | fuel + 1, origin, e => Record.evalStep host (ownEval host fuel origin) (fun _ _ => .step _) origin e

/-- What happens in the execution of a statement, where a body that is called is one step, and a loop over the
variable is one as well. -/
def ownExec (host : Host) (set : String) :
    (fuel : Nat) → Origin → (st : Statement) → Record (exec host fuel st)
  | 0, _, _ => .step _
  | fuel + 1, origin, st =>
    Record.execStep host fuel (ownEval host fuel origin) (ownExec host set fuel origin) (fun _ _ => .step _)
      (st.loopsOver set) origin st

/-- The state in which a step begins, and those that come up in it. -/
inductive Record.Reaches {x : Run α} (r : Record x) (s : RunState) : RunState → Prop
  | start : Reaches r s s
  | later {s₁ : RunState} (h : Moment.state s₁ ∈ r.moments s) : Reaches r s s₁

/-! ## Steps that keep the loops -/

theorem state_mem_left {o : Outcome α} {s' : RunState} :
    Moment.state s' ∈ left o ↔ (∃ a, o = .done a s') ∨ ∃ f, o = .failed f s' := by
  cases o with
  | done a s =>
    simp only [left, List.mem_singleton, Moment.state.injEq, Outcome.done.injEq, reduceCtorEq, exists_false, or_false]
    exact ⟨fun h => ⟨a, rfl, h.symm⟩, fun ⟨_, _, h⟩ => h.symm⟩
  | failed f s =>
    simp only [left, List.mem_singleton, Moment.state.injEq, Outcome.failed.injEq, reduceCtorEq, exists_false, false_or]
    exact ⟨fun h => ⟨f, rfl, h.symm⟩, fun ⟨_, _, h⟩ => h.symm⟩
  | exhausted => simp [left]

/-- The loops are the same, up to where the `k` innermost ones are. -/
structure SameLoops (k : Nat) (s s' : RunState) : Prop where
  outer : s'.activation.loops.drop k = s.activation.loops.drop k
  sets : s'.activation.loops.map (·.set) = s.activation.loops.map (·.set)

theorem SameLoops.of_eq {k : Nat} {s s' : RunState} (h : s'.activation.loops = s.activation.loops) :
    SameLoops k s s' := by
  constructor <;> rw [h]

theorem SameLoops.trans {k : Nat} {s s₁ s₂ : RunState} (h₁ : SameLoops k s s₁) (h₂ : SameLoops k s₁ s₂) :
    SameLoops k s s₂ :=
  ⟨h₂.outer.trans h₁.outer, h₂.sets.trans h₁.sets⟩

/-- None of the `k` innermost loops is one over the variable. -/
def Beyond (S : String) (k : Nat) (s : RunState) : Prop := S ∉ (s.activation.loops.take k).map (·.set)

theorem beyond_zero (s : RunState) : Beyond S 0 s := by simp [Beyond]

theorem Beyond.of_sameLoops {k : Nat} {s s' : RunState} (h : Beyond S k s) (hs : SameLoops k s s') : Beyond S k s' := by
  unfold Beyond at *
  rw [List.map_take, hs.sets, ← List.map_take]
  exact h

/-- Beyond the innermost loops, nothing has moved. -/
theorem Beyond.cursor_eq {k : Nat} {s s' : RunState} (h : Beyond S k s) (hs : SameLoops k s s') :
    s'.cursor S = s.cursor S := by
  have hskip : ∀ s : RunState, Beyond S k s → s.cursor S = (s.activation.loops.drop k).find? (·.set = S) := by
    intro s hbeyond
    have hnone : (s.activation.loops.take k).find? (·.set = S) = none := by
      rw [List.find?_eq_none]
      intro c hc hset
      exact hbeyond (List.mem_map.mpr ⟨c, hc, of_decide_eq_true hset⟩)
    unfold RunState.cursor
    rw [← List.take_append_drop k s.activation.loops, List.find?_append, hnone]
    simp
  rw [hskip s' (h.of_sameLoops hs), hskip s h, hs.outer]

/-- However the step ends, the loops are the same up to the `k` innermost ones. -/
def KeepsLoops (k : Nat) (x : Run α) : Prop := ∀ s s', .state s' ∈ left (x s) → SameLoops k s s'

section

variable {k : Nat}

theorem Quiet.keepsLoops {x y : Run α} (h : Quiet F x y) : KeepsLoops k x := by
  intro s s' hs'
  have hleaves := (h s).leaves
  rcases state_mem_left.mp hs' with ⟨a, hx⟩ | ⟨f, hx⟩
  · rw [hx] at hleaves
    exact .of_eq (by rw [hleaves.activation])
  · rw [hx] at hleaves
    exact .of_eq (by rw [hleaves.2.activation])

theorem keepsLoops_changeScopes (f : Scopes → Except ScopeError (α × Scopes)) : KeepsLoops k (changeScopes f) := by
  intro s s' hs'
  unfold changeScopes at hs'
  cases hf : f s.scopes with
  | ok _ | error _ =>
    rw [hf] at hs'
    cases List.mem_singleton.mp hs'
    exact .of_eq rfl

theorem keepsLoops_install (name : String) (v : Value) : KeepsLoops k (install name v) := keepsLoops_changeScopes _

theorem keepsLoops_modify {f : RunState → RunState} (h : ∀ s, SameLoops k s (f s)) : KeepsLoops k (Run.modify f) := by
  intro s s' hs'
  cases List.mem_singleton.mp hs'
  exact h s

theorem keepsLoops_writeArray (x : Slot) (items : List Value) : KeepsLoops k (writeArray x items) :=
  keepsLoops_modify fun _ => .of_eq rfl

/-- A pass moves the cursor of its loop, which stays one over the same variable. -/
theorem keepsLoops_setPass (index : Nat) : KeepsLoops 1 (setPass index) := by
  refine keepsLoops_modify fun s => ?_
  cases hloops : s.activation.loops with
  | nil => exact .of_eq rfl
  | cons c outer => exact ⟨by simp [hloops], by simp [hloops]⟩

theorem KeepsLoops.weaken {x : Run α} (h : KeepsLoops 0 x) : KeepsLoops k x :=
  fun s s' hs' => .of_eq (h s s' hs').outer

theorem KeepsLoops.bind {x : Run α} {f : α → Run β} (hx : KeepsLoops k x) (hf : ∀ a, KeepsLoops k (f a)) :
    KeepsLoops k (x >>= f) := by
  intro s s' hs'
  have hs'' : Moment.state s' ∈ left (Run.bind x f s) := hs'
  unfold Run.bind at hs''
  cases hxs : x s with
  | done a s₁ =>
    rw [hxs] at hs''
    exact (hx s s₁ (state_mem_left.mpr (.inl ⟨a, hxs⟩))).trans (hf a s₁ s' hs'')
  | failed e s₁ =>
    rw [hxs] at hs''
    exact hx s s' (by rw [hxs]; exact hs'')
  | exhausted =>
    rw [hxs] at hs''
    cases hs''

theorem KeepsLoops.recover {x : Run α} {p : Fault → Bool} {rest : Fault → Run α} (hx : KeepsLoops k x)
    (hrest : ∀ f, KeepsLoops k (rest f)) : KeepsLoops k (recover x p rest) := by
  intro s s' hs'
  unfold Run.recover at hs'
  cases hxs : x s with
  | done a s₁ =>
    rw [hxs] at hs'
    exact hx s s' (by rw [hxs]; exact hs')
  | failed f s₁ =>
    have h₁ := hx s s₁ (state_mem_left.mpr (.inr ⟨f, hxs⟩))
    rw [hxs] at hs'
    dsimp only at hs'
    split at hs'
    · exact h₁.trans (hrest f s₁ s' hs')
    · cases List.mem_singleton.mp hs'
      exact h₁
  | exhausted =>
    rw [hxs] at hs'
    cases hs'

/-- What is left between two changes of the activation is what the step leaves, after the second change. -/
theorem state_mem_left_between {enter leave : Activation → Activation} {x : Run α} {s s' : RunState}
    (h : .state s' ∈ left (Run.between enter leave x s)) :
    ∃ s₁, .state s₁ ∈ left (x { s with activation := enter s.activation }) ∧
      s' = { s₁ with activation := leave s₁.activation } := by
  unfold Run.between at h
  cases hxs : x { s with activation := enter s.activation } with
  | done _ s₁ | failed _ s₁ =>
    rw [hxs] at h
    cases List.mem_singleton.mp h
    exact ⟨s₁, List.mem_singleton.mpr rfl, rfl⟩
  | exhausted =>
    rw [hxs] at h
    cases h

theorem KeepsLoops.withCandidate {x : Run α} (hx : KeepsLoops k x) (r : InstanceRef) :
    KeepsLoops k (withCandidate r x) := by
  intro s s' hs'
  obtain ⟨s₁, hs₁, rfl⟩ := state_mem_left_between hs'
  obtain ⟨houter, hsets⟩ := hx _ s₁ hs₁
  exact ⟨houter, hsets⟩

/-- The cursor of the loop goes with it. -/
theorem KeepsLoops.withLoop {x : Run α} (hx : KeepsLoops 1 x) (c : LoopCursor) : KeepsLoops 0 (withLoop c x) := by
  intro s s' hs'
  obtain ⟨s₁, hs₁, rfl⟩ := state_mem_left_between hs'
  have houter := (hx _ s₁ hs₁).outer
  rw [List.drop_one, List.drop_one] at houter
  exact .of_eq houter

/-- In a block, only variables are more or less. -/
theorem KeepsLoops.inBlock {x : Run α} (hx : KeepsLoops k x) : KeepsLoops k (inBlock x) := by
  intro s s' hs'
  unfold Run.inBlock at hs'
  cases henter : s.scopes.enterBlock with
  | error e =>
    rw [henter] at hs'
    cases List.mem_singleton.mp hs'
    exact .of_eq rfl
  | ok t =>
    rw [henter] at hs'
    dsimp only at hs'
    have h := hx { s with scopes := t }
    cases hxs : x { s with scopes := t } with
    | done _ s₁ | failed _ s₁ =>
      obtain ⟨houter, hsets⟩ := h s₁ (by rw [hxs]; exact List.mem_singleton.mpr rfl)
      rw [hxs] at hs'
      dsimp only at hs'
      cases hleave : s₁.scopes.leaveBlock with
      | ok _ | error _ =>
        rw [hleave] at hs'
        cases List.mem_singleton.mp hs'
        exact ⟨houter, hsets⟩
    | exhausted =>
      rw [hxs] at hs'
      cases hs'

theorem KeepsLoops.inScope {x : Run α} (hx : KeepsLoops k x) : KeepsLoops k (inScope x) := by
  intro s s' hs'
  unfold Run.inScope at hs'
  have h := hx { s with scopes := s.scopes.enterScope }
  cases hxs : x { s with scopes := s.scopes.enterScope } with
  | done _ s₁ | failed _ s₁ =>
    obtain ⟨houter, hsets⟩ := h s₁ (by rw [hxs]; exact List.mem_singleton.mpr rfl)
    rw [hxs] at hs'
    dsimp only at hs'
    cases hleave : s₁.scopes.leaveScope with
    | ok _ | error _ =>
      rw [hleave] at hs'
      cases List.mem_singleton.mp hs'
      exact ⟨houter, hsets⟩
  | exhausted =>
    rw [hxs] at hs'
    cases hs'

end

theorem keepsLoops_passes {body : Run Signal} (hbody : KeepsLoops 0 body) (item : String) (refs : List InstanceRef)
    (index : Nat) : KeepsLoops 1 (passes item body index refs) := by
  induction refs generalizing index with
  | nil => exact (quiet_pure (F := isRecoverable) _).keepsLoops
  | cons r rest ih =>
    refine .bind (keepsLoops_setPass index) fun _ => .bind (keepsLoops_install item _) fun _ => ?_
    refine .bind hbody.weaken fun signal => ?_
    cases signal with
    | normal | continued => exact ih (index + 1)
    | broke | returned | stopped => exact (quiet_pure (F := isRecoverable) _).keepsLoops

theorem keepsLoops_forEach {body : Run Signal} (hbody : KeepsLoops 0 body) (item set : String) :
    KeepsLoops 0 (forEach item set body) := by
  refine .bind (quiet_readVariable set).keepsLoops fun v => ?_
  refine .bind (quiet_expectInstances _ v).keepsLoops fun refs => ?_
  exact (keepsLoops_passes hbody item refs 0).withLoop _

/-! ## Records apart from a loop -/

/-- The step keeps the loops but for the `k` innermost ones, and while none of these is over the variable, at all its
points the innermost loop over the variable is the same. -/
structure Apart (S : String) (k : Nat) {x : Run α} (r : Record x) : Prop where
  keeps : KeepsLoops k x
  cursor : ∀ s s₁, Beyond S k s → .state s₁ ∈ r.moments s → s₁.cursor S = s.cursor S

section

variable {k : Nat}

theorem apart_step {x : Run α} (h : KeepsLoops k x) : Apart S k (.step x) :=
  ⟨h, fun s s₁ hbeyond hs₁ => hbeyond.cursor_eq (h s s₁ hs₁)⟩

theorem apart_quiet {x y : Run α} (h : Quiet F x y) : Apart S k (.step x) := apart_step h.keepsLoops

theorem apart_done (a : α) : Apart S k (.done a) :=
  ⟨(quiet_pure (F := isRecoverable) a).keepsLoops, fun _ _ _ hs₁ => (List.not_mem_nil hs₁).elim⟩

namespace Apart

theorem weaken {x : Run α} {r : Record x} (h : Apart S 0 r) : Apart S k r :=
  ⟨h.keeps.weaken, fun s s₁ _ => h.cursor s s₁ (beyond_zero s)⟩

theorem bind {x : Run α} {f : α → Run β} {rx : Record x} {rf : ∀ a, Record (f a)} (hx : Apart S k rx)
    (hf : ∀ a, Apart S k (rf a)) : Apart S k (rx.bind rf) := by
  refine ⟨hx.keeps.bind fun a => (hf a).keeps, fun s s₁ hbeyond hs₁ => ?_⟩
  rcases List.mem_append.mp hs₁ with hs₁ | hs₁
  · exact hx.cursor s s₁ hbeyond hs₁
  · cases hxs : x s with
    | done a s' =>
      rw [hxs] at hs₁
      have hsame := hx.keeps s s' (state_mem_left.mpr (.inl ⟨a, hxs⟩))
      exact ((hf a).cursor s' s₁ (hbeyond.of_sameLoops hsame) hs₁).trans (hbeyond.cursor_eq hsame)
    | failed | exhausted =>
      rw [hxs] at hs₁
      cases hs₁

theorem either {c : Bool} {x y : Run α} {rx : Record x} {ry : Record y} (hx : Apart S k rx) (hy : Apart S k ry) :
    Apart S k (.either c rx ry) := by
  cases c with
  | true => exact hx
  | false => exact hy

theorem closedIf {c : Bool} {x : Run α} {r : Record x} (hx : c = true → KeepsLoops k x) (hr : c = false → Apart S k r) :
    Apart S k (r.closedIf c) := by
  cases c with
  | true => exact apart_step (hx rfl)
  | false => exact hr rfl

theorem reporting {origin : Origin} {node : Node} {p : Fault → Bool} {a : α} {x : Run α} {rx : Record x}
    (hx : Apart S k rx) : Apart S k (rx.reporting origin node p a) := by
  refine ⟨hx.keeps.recover fun f => ?_, fun s s₁ hbeyond hs₁ => ?_⟩
  · exact (Quiet.bind (F := isRecoverable) (quiet_report _ f) fun _ => quiet_pure a).keepsLoops
  rcases List.mem_append.mp hs₁ with hs₁ | hs₁
  · exact hx.cursor s s₁ hbeyond hs₁
  · cases hxs : x s with
    | failed f s' =>
      have hsame := hx.keeps s s' (state_mem_left.mpr (.inr ⟨f, hxs⟩))
      rw [hxs] at hs₁
      dsimp only at hs₁
      split at hs₁
      · -- to note a fault changes the journal only
        have heq : s₁ = noted node.line f s' := by simpa using hs₁
        rw [heq]
        exact hbeyond.cursor_eq ⟨hsame.outer, hsame.sets⟩
      · cases hs₁
    | done | exhausted =>
      rw [hxs] at hs₁
      cases hs₁

/-- A step that is entered and left again with the same loops. -/
theorem enclosed {x y : Run α} {rx : Record x} (hx : Apart S k rx) (hy : KeepsLoops k y) {s entered s₁ : RunState}
    (hbeyond : Beyond S k s) (hs₁ : .state s₁ ∈ .state entered :: rx.moments entered ++ left (y s))
    (hentered : entered.activation.loops = s.activation.loops) : s₁.cursor S = s.cursor S := by
  have henter : SameLoops k s entered := .of_eq hentered
  rcases List.mem_append.mp hs₁ with hs₁ | hs₁
  · rcases List.mem_cons.mp hs₁ with hs₁ | hs₁
    · cases hs₁
      exact hbeyond.cursor_eq henter
    · exact (hx.cursor entered s₁ (hbeyond.of_sameLoops henter) hs₁).trans (hbeyond.cursor_eq henter)
  · exact hbeyond.cursor_eq (hy s s₁ hs₁)

theorem withCandidate {x : Run α} {rx : Record x} (hx : Apart S k rx) (r : InstanceRef) :
    Apart S k (rx.withCandidate r) := by
  refine ⟨hx.keeps.withCandidate r, fun s s₁ hbeyond hs₁ => ?_⟩
  exact hx.enclosed (hx.keeps.withCandidate r) hbeyond hs₁ rfl

theorem inScope {x : Run α} {rx : Record x} (hx : Apart S k rx) : Apart S k rx.inScope := by
  refine ⟨hx.keeps.inScope, fun s s₁ hbeyond hs₁ => ?_⟩
  exact hx.enclosed hx.keeps.inScope hbeyond hs₁ rfl

theorem inBlock {x : Run α} {rx : Record x} (hx : Apart S k rx) : Apart S k rx.inBlock := by
  refine ⟨hx.keeps.inBlock, fun s s₁ hbeyond hs₁ => ?_⟩
  cases henter : s.scopes.enterBlock with
  | ok t =>
    simp only [Record.inBlock, henter] at hs₁
    exact hx.enclosed hx.keeps.inBlock hbeyond hs₁ rfl
  | error e =>
    simp only [Record.inBlock, henter] at hs₁
    exact hbeyond.cursor_eq (hx.keeps.inBlock s s₁ hs₁)

/-- A loop over another variable. -/
theorem withLoop {x : Run α} {rx : Record x} (hx : Apart S 1 rx) {c : LoopCursor} (hc : c.set ≠ S) :
    Apart S 0 (rx.withLoop c) := by
  have hkeeps := hx.keeps.withLoop c
  refine ⟨hkeeps, fun s s₁ hbeyond hs₁ => ?_⟩
  have hentered : RunState.cursor { s with activation := { s.activation with loops := c :: s.activation.loops } } S =
      s.cursor S := List.find?_cons_of_neg (by simpa using hc)
  rcases List.mem_append.mp hs₁ with hs₁ | hs₁
  · rcases List.mem_cons.mp hs₁ with hs₁ | hs₁
    · cases hs₁
      exact hentered
    · refine (hx.cursor _ s₁ ?_ hs₁).trans hentered
      simpa [Beyond] using hc.symm
  · exact hbeyond.cursor_eq (hkeeps s s₁ hs₁)

theorem valued {x : Run Value} {rx : Record x} (hx : Apart S k rx) : Apart S k rx.valued := by
  refine ⟨hx.keeps, fun s s₁ hbeyond hs₁ => ?_⟩
  rcases List.mem_append.mp hs₁ with hs₁ | hs₁
  · exact hx.cursor s s₁ hbeyond hs₁
  · cases hxs : x s with
    | done v s' =>
      rw [hxs] at hs₁
      cases List.mem_singleton.mp hs₁
    | failed | exhausted =>
      rw [hxs] at hs₁
      cases hs₁

theorem statement {x : Run Signal} {rx : Record x} (hx : Apart S k rx) (st : Statement) :
    Apart S k (rx.statement st) := by
  refine ⟨hx.keeps, fun s s₁ hbeyond hs₁ => hx.cursor s s₁ hbeyond ?_⟩
  -- neither the begin nor the end of a statement is a state
  cases hxs : x s with
  | done signal s' =>
    rw [Record.moments_statement hxs] at hs₁
    simpa using hs₁
  | failed | exhausted =>
    rw [Record.moments_statement_other (by simp [hxs])] at hs₁
    simpa using hs₁

theorem turning {x : Run Signal} {rx : Record x} (hx : Apart S k rx) : Apart S k rx.turning := by
  refine ⟨hx.keeps, fun s s₁ hbeyond hs₁ => hx.cursor s s₁ hbeyond ?_⟩
  simpa [Record.turning] using hs₁

end Apart

end

/-! ## Expressions -/

theorem apart_arraySlot (name : String) : Apart S 0 (Record.arraySlot name) := by
  refine .bind (apart_step (keepsLoops_changeScopes _)) fun x => ?_
  refine .bind (apart_quiet (F := isRecoverable) (quiet_look _)) fun v => ?_
  refine .bind (apart_quiet (quiet_ofExcept (elements_recoverable v))) fun items => ?_
  exact .bind (apart_step (keepsLoops_writeArray x items)) fun _ => apart_done _

section

variable {derive : Action → InstanceRef → String → Run Value} {rd : ∀ a r name, Record (derive a r name)}
  (hd : ∀ a r name, Apart S 0 (rd a r name))

theorem apart_element {base : Run Value} {rb : Record base} (hb : Apart S 0 rb) (position : Nat) :
    Apart S 0 (rb.element position) := by
  refine .bind hb fun v => .bind (apart_quiet (quiet_ofExcept (elements_recoverable v))) fun items => ?_
  exact apart_done _

include hd

theorem apart_get (p : Place) : Apart S 0 (Record.get rd p) := by
  induction p with
  | value v => exact apart_done _
  | var name => exact apart_quiet (quiet_readVariable name)
  | field r name =>
    refine .bind (apart_quiet (quiet_ask _)) fun content => ?_
    cases content with
    | stored v => exact apart_done _
    | derived a => exact hd a r name
  | index base position ih =>
    cases base with
    | var name =>
      refine .bind (apart_arraySlot name) fun slot => ?_
      refine .bind (apart_quiet (quiet_ofExcept (growTo_recoverable _ position))) fun grown => ?_
      exact .bind (apart_step (keepsLoops_writeArray _ grown)) fun _ => apart_done _
    | value | field | index | derived => exact apart_element ih position
  | derived => exact apart_quiet (F := isRecoverable) (quiet_look _)

theorem apart_set (p : Place) (v : Value) : Apart S 0 (Record.set rd p v) := by
  have hupdate : ∀ {base : Place} {write : Value → Run Unit} {rw : ∀ v, Record (write v)} (position : Nat) (v : Value),
      (∀ v, Apart S 0 (rw v)) → Apart S 0 ((Record.get rd base).update rw position v) := by
    intro base write rw position v hw
    refine .bind (apart_get hd base) fun w => ?_
    refine .bind (apart_quiet (quiet_ofExcept (elements_recoverable w))) fun items => ?_
    exact .bind (apart_quiet (quiet_ofExcept (store_recoverable items position v))) fun items' => hw _
  induction p generalizing v with
  | value w => exact apart_quiet (F := isRecoverable) (quiet_fail rfl)
  | var name => exact apart_step (keepsLoops_install name v)
  | field r name => exact apart_quiet (quiet_change _)
  | index base position ih =>
    cases base with
    | var name =>
      refine .bind (apart_arraySlot name) fun slot => ?_
      refine .bind (apart_quiet (quiet_ofExcept (store_recoverable _ position v))) fun items => ?_
      exact apart_step (keepsLoops_writeArray _ items)
    | value | field | index | derived => exact hupdate position v ih
  | derived => exact apart_step (keepsLoops_modify fun _ => .of_eq rfl)

end

section

variable {eval : Expression → Run Value} {re : ∀ e, Record (eval e)} (hE : ∀ e, Apart S 0 (re e))

include hE

theorem apart_evalUnary (op : UnaryOperator) (operand : Expression) : Apart S 0 (Record.evalUnary re op operand) := by
  cases op with
  | first => exact apart_quiet (quiet_loopPosition "first" _ operand)
  | last => exact apart_quiet (quiet_loopPosition "last" _ operand)
  | minus => exact .bind (hE operand) fun v => apart_quiet (quiet_ofExcept (negate_recoverable v))
  | plus => exact .bind (hE operand) fun v => apart_quiet (quiet_ofExcept (affirm_recoverable v))
  | not | empty | notEmpty | cardinality => exact .bind (hE operand) fun v => apart_done _

theorem apart_evalRef (e : Expression) : Apart S 0 (Record.evalRef re e) :=
  .bind (hE e) fun v => apart_quiet (quiet_expectRef v)

theorem apart_evalArguments (done : Arguments) (arguments : List Argument) :
    Apart S 0 (Record.evalArguments re done arguments) := by
  induction arguments generalizing done with
  | nil => exact apart_done _
  | cons argument rest ih =>
    obtain ⟨extent, name, value⟩ := argument
    exact .bind (hE value) fun v => ih _

theorem apart_place : ∀ e, Apart S 0 (Record.place re e)
  | .var _ _ => apart_done _
  | .field _ target name => by
    refine .bind (apart_quiet (quiet_isComputed target name)) fun computed => .either (apart_done _) ?_
    exact .bind (apart_evalRef hE target) fun r => apart_done _
  | .index _ target position => by
    refine .bind (apart_place target) fun base => .bind (hE position) fun v => ?_
    exact .bind (apart_quiet (quiet_expectIndex v)) fun i => apart_done _
  | .integer _ _ | .real _ _ | .string _ _ | .boolean _ _ | .enumerator _ _ _ | .self _ | .selected _
  | .parameter _ _ _ | .unary _ _ _ | .binary _ _ _ _ | .invoke _ _ _ _ => .bind (hE _) fun _ => apart_done _

theorem apart_resolve (callee : Callee) (name : String) : Apart S 0 (Record.resolve re callee name) := by
  cases callee with
  | function | unmarked owner | bridge entity | ofClass className | port port =>
    exact .bind (apart_quiet (quiet_ask _)) fun _ => apart_done _
  | receiver target =>
    refine .bind (apart_evalRef hE target) fun r => ?_
    exact .bind (apart_quiet (quiet_ask _)) fun _ => apart_done _

end

section

variable {eval : Expression → Run Value} {activate : Activation → Body → Run Value} {re : ∀ e, Record (eval e)}
  {ra : ∀ a b, Record (activate a b)} (hE : ∀ e, Apart S 0 (re e)) (hA : ∀ a b, Apart S 0 (ra a b))
  (host : Host)

include hA

theorem apart_callAction (action : Action) (receiver : Option InstanceRef) (arguments : Arguments) :
    Apart S 0 (Record.callAction host ra action receiver arguments) := by
  cases action with
  | written label body => exact hA _ body
  | log op => exact apart_quiet (quiet_performLog _ op arguments)
  | native name => exact apart_quiet (quiet_performNative _ receiver arguments)

theorem apart_computeDerived (action : Action) (r : InstanceRef) (name : String) :
    Apart S 0 (Record.computeDerived host ra action r name) := by
  cases action with
  | written label body => exact hA _ body
  | log op => exact apart_quiet (quiet_performLog _ op [])
  | native name => exact apart_quiet (quiet_performNative _ (some r) [])

include hE

theorem apart_invoke (callee : Callee) (name : String) (arguments : List Argument) :
    Apart S 0 (Record.invoke host re ra callee name arguments) := by
  refine .bind (apart_resolve hE callee name) fun ⟨action, receiver⟩ => ?_
  refine .bind (apart_evalArguments hE [] arguments) fun evaluated => ?_
  exact apart_callAction hA host action receiver evaluated

theorem apart_evalForm (e : Expression) : Apart S 0 (Record.evalForm host re ra e) := by
  have hplace : Apart S 0 ((Record.place re e).bind fun p => Record.get (Record.computeDerived host ra) p) :=
    .bind (apart_place hE e) fun p => apart_get (apart_computeDerived hA host) p
  cases e with
  | integer | real | string | boolean => exact apart_done _
  | enumerator extent enumeration name => exact apart_quiet (quiet_ask (·.findEnumerator enumeration name))
  | self => exact .bind (apart_quiet quiet_receiver) fun r => apart_done _
  | selected => exact .bind (apart_quiet quiet_selected) fun r => apart_done _
  | parameter extent name =>
    unfold Record.evalForm
    refine .bind (apart_quiet (F := isRecoverable) (quiet_look _)) fun argument => ?_
    cases argument with
    | some v => exact apart_done _
    | none => exact apart_quiet (F := isRecoverable) (quiet_fail rfl)
  | var | field | index => exact hplace
  | unary extent op operand => exact apart_evalUnary hE op operand
  | binary extent left op right =>
    refine .bind (hE left) fun l => .bind (hE right) fun r => ?_
    exact apart_quiet (quiet_ofExcept (binary_recoverable op l r))
  | invoke extent callee name arguments => exact apart_invoke hE hA host callee name arguments

theorem apart_evalStep (origin : Origin) (e : Expression) : Apart S 0 (Record.evalStep host re ra origin e) :=
  (apart_evalForm hE hA host e).reporting

end

/-! ## Statements -/

section

variable {exec : Statement → Run Signal} {rx : ∀ st, Record (exec st)} (hX : ∀ st, Apart S 0 (rx st))

include hX

theorem apart_execAll (sts : List Statement) : Apart S 0 (Record.execAll rx sts) := by
  induction sts with
  | nil => exact apart_done _
  | cons st rest ih =>
    refine .bind (hX st) fun signal => ?_
    cases signal with
    | normal => exact ih
    | returned | broke | continued | stopped => exact apart_done _

theorem apart_execBlock (b : Block) : Apart S 0 (Record.execBlock rx b) := (apart_execAll hX b.statements).inBlock

theorem apart_execBody (b : Body) : Apart S 0 (Record.execBody rx b) := by
  refine .valued (.bind (apart_execBlock hX b.block).inScope fun signal => ?_)
  refine .bind (apart_quiet (F := isRecoverable) (quiet_look _)) fun derived => apart_step ?_
  split
  · exact (quiet_pure (F := isRecoverable) _).keepsLoops
  · exact (quiet_pure (F := isRecoverable) _).keepsLoops

end

theorem apart_afterPass {k : Nat} {rest : Run Signal} {rr : Record rest} (h : Apart S k rr) (signal : Signal) :
    Apart S k (rr.afterPass signal) := by
  cases signal with
  | normal | continued => exact h
  | broke | returned | stopped => exact apart_done _

section

variable {body : Run Signal} {rb : Record body} (hb : Apart S 0 rb)

include hb

theorem apart_passes (item : String) (refs : List InstanceRef) (index : Nat) :
    Apart S 1 (rb.passes item index refs) := by
  induction refs generalizing index with
  | nil => exact apart_done _
  | cons r rest ih =>
    refine .turning (.bind (apart_step (keepsLoops_setPass index)) fun _ => ?_)
    refine .bind (apart_step (keepsLoops_install item _)) fun _ => ?_
    exact .bind hb.weaken fun signal => apart_afterPass (ih (index + 1)) signal

theorem apart_forEach (item : String) {set : String} (hset : set ≠ S) : Apart S 0 (rb.forEach item set) := by
  refine .bind (apart_quiet (quiet_readVariable set)) fun v => ?_
  refine .bind (apart_quiet (quiet_expectInstances _ v)) fun refs => ?_
  exact (apart_passes hb item refs 0).withLoop hset

theorem apart_whileTrue {condition : Run Value} {rc : Record condition} (hc : Apart S 0 rc) (fuel : Nat) :
    Apart S 0 (rb.whileTrue rc fuel) := by
  induction fuel with
  | zero => exact apart_quiet (F := isRecoverable) quiet_exhausted
  | succ fuel ih =>
    refine .turning (.bind hc fun v => .either ?_ (apart_done _))
    exact .bind hb fun signal => apart_afterPass ih signal

end

section

variable {eval : Expression → Run Value} {re : ∀ e, Record (eval e)} (hE : ∀ e, Apart S 0 (re e))

include hE

theorem apart_filter (condition : Expression) (single : Bool) (refs : List InstanceRef) :
    Apart S 0 (Record.filter re condition single refs) := by
  induction refs with
  | nil => exact apart_done _
  | cons r rest ih =>
    have hsatisfies : Apart S 0 (Record.satisfies re condition r) :=
      .bind ((hE condition).withCandidate r).inBlock fun _ => apart_done _
    refine .bind hsatisfies fun holds => .either (.either (apart_done _) ?_) ih
    exact .bind ih fun kept => apart_done _

theorem apart_keep (cardinality : Cardinality) (condition : Option Expression) (candidates : List InstanceRef) :
    Apart S 0 (Record.keep re cardinality condition candidates) := by
  cases condition with
  | none => exact apart_done _
  | some c => exact apart_filter hE c _ candidates

theorem apart_buildEvent (spec : EventSpec) (target : EventTarget) : Apart S 0 (Record.buildEvent re spec target) := by
  refine .bind (apart_evalArguments hE [] spec.arguments) fun arguments => .bind ?_ fun recipient => apart_done _
  cases target with
  | ofClass | creator => exact apart_done _
  | receiver e => exact .bind (apart_evalRef hE e) fun r => apart_done _

end

theorem apart_acrossLink (operation : Population → InstanceRef → InstanceRef → String → Option String →
      Except PopulationError Population) (source target : String) (relationship : Relationship)
    (link : Option String) : Apart S 0 (Record.acrossLink operation source target relationship link) := by
  refine .bind (apart_quiet (quiet_readRef source)) fun a => .bind (apart_quiet (quiet_readRef target)) fun b => ?_
  cases link with
  | none => exact apart_quiet (quiet_change _)
  | some name =>
    refine .bind (apart_quiet (quiet_readRef name)) fun l => ?_
    exact .bind (apart_quiet (quiet_change _)) fun _ => apart_quiet (quiet_change _)

section

variable {eval : Expression → Run Value} {exec : Statement → Run Signal} {activate : Activation → Body → Run Value}
  {re : ∀ e, Record (eval e)} {rx : ∀ st, Record (exec st)} {ra : ∀ a b, Record (activate a b)}
  (hE : ∀ e, Apart S 0 (re e)) (hX : ∀ st, Apart S 0 (rx st)) (hA : ∀ a b, Apart S 0 (ra a b))
  (host : Host) (fuel : Nat)

include hE hX

theorem apart_execElifs (otherwise : Option Block) (elifs : List Elif) :
    Apart S 0 (Record.execElifs re rx otherwise elifs) := by
  induction elifs with
  | nil =>
    cases otherwise with
    | some b => exact apart_execBlock hX b
    | none => exact apart_done _
  | cons elif rest ih =>
    obtain ⟨extent, condition, b⟩ := elif
    exact .bind (hE condition) fun v => .either (apart_execBlock hX b) ih

include hA

theorem apart_execForm (st : Statement) (hst : st.loopsOver S = false) :
    Apart S 0 (Record.execForm host fuel re rx ra st) := by
  have hnormally : ∀ {α : Type} {x : Run α} {r : Record x}, Apart S 0 r → Apart S 0 r.normally :=
    fun h => .bind h fun _ => apart_done _
  cases st with
  | breakLoop | continueLoop | stop => exact apart_done _
  | returnValue extent value =>
    cases value with
    | none => exact apart_done _
    | some e => exact .bind (hE e) fun v => apart_done _
  | assign extent target value =>
    refine .bind (hE value) fun v => .bind (apart_place hE target) fun p => ?_
    exact hnormally (apart_set (apart_computeDerived hA host) p v)
  | invoke extent invocation => exact hnormally (hE invocation)
  | create extent name className =>
    refine .bind (apart_quiet (quiet_perform _)) fun r => ?_
    cases name with
    | some name => exact hnormally (apart_step (keepsLoops_install name _))
    | none => exact apart_done _
  | delete extent name =>
    refine .bind (apart_quiet (quiet_readRef name)) fun r => hnormally (apart_quiet (quiet_change _))
  | relate extent source target relationship link | unrelate extent source target relationship link =>
    exact hnormally (apart_acrossLink _ source target relationship link)
  | selectFrom extent cardinality name className condition =>
    refine .bind (apart_quiet (quiet_candidatesOf cardinality condition className)) fun candidates => ?_
    refine .bind (apart_keep hE cardinality condition candidates) fun kept => ?_
    exact hnormally (apart_step (keepsLoops_install name _))
  | selectRelated extent cardinality name start chain condition =>
    refine .bind (apart_quiet (quiet_startInstances start)) fun refs => ?_
    refine .bind (apart_quiet (quiet_followChain chain refs)) fun reached => ?_
    refine .bind (apart_keep hE cardinality condition reached) fun kept => ?_
    exact hnormally (apart_step (keepsLoops_install name _))
  | forEach extent item set b => exact apart_forEach (apart_execBlock hX b) item (of_decide_eq_false hst)
  | whileLoop extent condition b => exact apart_whileTrue (apart_execBlock hX b) (hE condition) fuel
  | branch extent condition b elifs otherwise =>
    refine .bind (hE condition) fun v => .either (apart_execBlock hX b) ?_
    exact apart_execElifs hE hX otherwise elifs
  | generate extent spec target =>
    exact .bind (apart_buildEvent hE spec target) fun e => hnormally (apart_quiet (quiet_change _))
  | createEvent extent name spec target =>
    exact .bind (apart_buildEvent hE spec target) fun e => hnormally (apart_step (keepsLoops_install name _))
  | generateCreated extent name =>
    refine .bind (apart_quiet (quiet_readVariable name)) fun v => ?_
    cases v with
    | event e => exact hnormally (apart_quiet (quiet_change _))
    | null | boolean | integer | real | string | enumerator | ref | set | array | global =>
      exact hnormally (apart_quiet (F := isRecoverable) (quiet_fail rfl))

/-- A loop over the variable has points of its own, but it is left like any other. -/
theorem apart_execStep (origin : Origin) (st : Statement) :
    Apart S 0 (Record.execStep host fuel re rx ra (st.loopsOver S) origin st) := by
  refine .statement (.reporting (.closedIf (fun hst => ?_) fun hst => apart_execForm hE hX hA host fuel st hst)) st
  cases st with
  | forEach extent item set b => exact keepsLoops_forEach (apart_execBlock hX b).keeps item set
  | _ => cases hst

end

/-! ## Runs -/

/-- Whatever an expression or a statement of a body does, at all its points outside of a further loop over the variable
`first` and `last` speak of the loop that they spoke of before. -/
theorem apart_run (host : Host) (fuel : Nat) (origin : Origin) :
    (∀ e, Apart S 0 (ownEval host fuel origin e)) ∧ ∀ st, Apart S 0 (ownExec host S fuel origin st) := by
  induction fuel with
  | zero =>
    exact ⟨fun _ => apart_quiet (F := isRecoverable) quiet_exhausted,
      fun _ => apart_quiet (F := isRecoverable) quiet_exhausted⟩
  | succ fuel ih =>
    obtain ⟨hE, hX⟩ := ih
    have hA : ∀ a b, Apart S 0 (.step (activate host fuel a b)) :=
      fun a b => apart_quiet (quiet_activate host fuel a b)
    exact ⟨apart_evalStep hE hA host origin, apart_execStep hE hX hA host fuel origin⟩

end Run

end ObjectAction
