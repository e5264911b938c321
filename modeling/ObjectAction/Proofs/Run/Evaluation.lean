/-
Whole runs. Every expression, statement, block, invocation and body that ends keeps the scopes and the
activation in order, however it ends. And no run needs more than its statements to deal with faults: an
expression never fails for the population or the scopes, and no statement, body or call fails at all.

The second part is about every step inside a run, so it compares the evaluator with a strict one, which
breaks off wherever a step ends in a fault that should not be left. Both give the same result.
-/
import ObjectAction.Proofs.Body.Writing
import ObjectAction.Proofs.Run.Statement
import ObjectAction.Run.Evaluation

namespace ObjectAction

namespace Run

open Fault (isRecoverable endsStatement never)

variable {α : Type} {F : Fault → Bool}

/-! ## The strict evaluator -/

/-- The step, which breaks off where it would fail with a fault that is not one of `F`. -/
def allowing (F : Fault → Bool) (x : Run α) : Run α := recover x (fun f => !F f) fun _ => exhausted

mutual

/-- Evaluates an expression; it may fail only with a fault that ends the statement around it. -/
def strictEval (host : Host) : Nat → Expression → Run Value
  | 0, _ => exhausted
  | fuel + 1, e =>
    allowing endsStatement (evalStep host (strictEval host fuel) (strictActivate host fuel) e)

/-- Executes a statement; it may not fail. -/
def strictExec (host : Host) : Nat → Statement → Run Signal
  | 0, _ => exhausted
  | fuel + 1, st =>
    allowing never (execStep host fuel (strictEval host fuel) (strictExec host fuel)
      (strictActivate host fuel) st)

/-- Runs a body in an activation of its own; it may not fail. -/
def strictActivate (host : Host) : Nat → Activation → Body → Run Value
  | 0, _, _ => exhausted
  | fuel + 1, a, b => allowing never (within a (execBody (strictExec host fuel) b))

end

theorem Obeys.allowing {P : RunState → Prop} {x y : Run α} {s : RunState} (h : Obeys F P x y s) :
    Obeys F P x (allowing F y) s := by
  obtain ⟨hsame, hleaves⟩ := h
  refine ⟨?_, hleaves⟩
  unfold Run.allowing recover
  rw [hsame]
  cases hx : x s with
  | done a s₁ => rfl
  | failed f s₁ =>
    rw [hx] at hleaves
    show (if (!F f) = true then .exhausted else .failed f s₁) = Outcome.failed f s₁
    rw [hleaves.1]
    rfl
  | exhausted => rfl

/-! ## Runs of any length -/

theorem endsStatement_recoverable (f : Fault) (h : endsStatement f = true) : isRecoverable f = true :=
  (Bool.and_eq_true_iff.mp h).1

theorem never_allowed (f : Fault) (h : never f = true) : F f = true := nomatch h

/-- The evaluator obeys the discipline, and the strict one gives the same: each layer obeys it if the one with
one unit of fuel less does. -/
theorem disciplined_run (host : Host) (fuel : Nat) :
    (∀ e, Disciplined endsStatement 0 (eval host fuel e) (strictEval host fuel e)) ∧
    (∀ st, Disciplined never 0 (exec host fuel st) (strictExec host fuel st)) ∧
    ∀ a b, Quiet never (activate host fuel a b) (strictActivate host fuel a b) := by
  induction fuel with
  | zero =>
    exact ⟨fun _ => quiet_exhausted.disciplined, fun _ => quiet_exhausted.disciplined, fun _ _ => quiet_exhausted⟩
  | succ fuel ih =>
    obtain ⟨hE, hX, hA⟩ := ih
    -- a layer asks less of its parts than it gives: that they fail with no fault of the scopes
    have hE' := fun e => (hE e).allow endsStatement_recoverable
    have hX' := fun st => (hX st).allow (G := isRecoverable) never_allowed
    have hA' := fun a b => (hA a b).allow (G := isRecoverable) never_allowed
    refine ⟨fun e s hs => ?_, fun st s hs => ?_, fun a b s => ?_⟩
    · exact (disciplined_evalStep hE' hA' host e s hs).allowing
    · exact (disciplined_execStep hE' hX' hA' host fuel st s hs).allowing
    · exact ((restores_execBody hX b).within a s).allowing

section

variable (host : Host) (fuel : Nat)

theorem disciplined_eval (e : Expression) :
    Disciplined isRecoverable 0 (eval host fuel e) (strictEval host fuel e) :=
  ((disciplined_run host fuel).1 e).allow endsStatement_recoverable

theorem disciplined_exec (st : Statement) :
    Disciplined never 0 (exec host fuel st) (strictExec host fuel st) :=
  (disciplined_run host fuel).2.1 st

theorem quiet_activate (a : Activation) (b : Body) :
    Quiet never (activate host fuel a b) (strictActivate host fuel a b) :=
  (disciplined_run host fuel).2.2 a b

end

/-! ## Scopes and activations -/

/-- However a step of a run ends, the scopes below the newest one and the activation are as before. An
expression, a statement or an invocation may bind names in the innermost block only, a block binds none in the
blocks around it, a body restores all variables, and a call the whole activation as well. -/
theorem scopes_and_activation_kept (host : Host) (fuel : Nat) (s : RunState) :
    (s.scopes.Open →
      (∀ e, (eval host fuel e s).Leaves endsStatement (s.Extends 0)) ∧
      (∀ st, (exec host fuel st s).Leaves never (s.Extends 0)) ∧
      (∀ callee name arguments, (invoke host (eval host fuel) (activate host fuel) callee name
        arguments s).Leaves isRecoverable (s.Extends 0)) ∧
      ∀ b, (execBlock (exec host fuel) b s).Leaves never s.Keeps) ∧
    (∀ b, (execBody (exec host fuel) b s).Leaves never s.Restores) ∧
    (∀ action receiver arguments,
      (callAction host (activate host fuel) action receiver arguments s).Leaves isRecoverable s.Same) ∧
    ∀ action r name,
      (computeDerived host (activate host fuel) action r name s).Leaves isRecoverable s.Same := by
  obtain ⟨hE, hX, hA⟩ := disciplined_run host fuel
  have hA' := fun a b => (hA a b).allow (G := isRecoverable) never_allowed
  refine ⟨fun hs => ⟨?_, ?_, ?_, ?_⟩, ?_, ?_, ?_⟩
  · exact fun e => (hE e s hs).leaves
  · exact fun st => (hX st s hs).leaves
  · intro callee name arguments
    exact (disciplined_invoke (disciplined_eval host fuel) hA' host callee name arguments s hs).leaves
  · exact fun b => (keepsNames_execBlock hX b s hs.stack_ne_nil).leaves
  · exact fun b => (restores_execBody hX b s).leaves
  · exact fun action receiver arguments => (quiet_callAction hA' host action receiver arguments s).leaves
  · exact fun action r name => (quiet_computeDerived hA' host action r name s).leaves

/-- A state inside two blocks of one scope; `n` is bound in the outer block and in the scope below. -/
def nestedState : RunState :=
  ⟨.initial, ⟨[[[], [("n", .integer 1)]], [[("n", .integer 7)]]]⟩, .start "f" none [], #[]⟩

theorem nestedState_open : nestedState.scopes.Open := ⟨_, _, _, rfl⟩

/-- `while (true) n = 2; m = n; break; end while;`, which writes a variable of an outer block, binds another
one and leaves its block from the middle. -/
def leavingLoop : Statement :=
  .whileLoop .nowhere (.boolean .nowhere true) (.mk .nowhere [
    .assign .nowhere (.var .nowhere "n") (.integer .nowhere 2),
    .assign .nowhere (.var .nowhere "m") (.var .nowhere "n"),
    .breakLoop .nowhere])

/-- The loop ends, and the scopes are in order behind it. -/
theorem leavingLoop_keeps_nestedState :
    nestedState.scopes.Open ∧ (∃ s', exec (.bare .off) 4 leavingLoop nestedState = .done .normal s') ∧
      (exec (.bare .off) 4 leavingLoop nestedState).Leaves never (nestedState.Extends 0) := by
  refine ⟨nestedState_open, ⟨_, rfl⟩, ?_⟩
  exact ((scopes_and_activation_kept (.bare .off) 4 nestedState).1 nestedState_open).2.1 leavingLoop

/-! ## Faults -/

theorem Obeys.not_failed {P : RunState → Prop} {x y : Run α} {s : RunState} (h : Obeys never P x y s) (f : Fault)
    (s' : RunState) : x s ≠ .failed f s' := by
  intro hx
  have hleaves := h.leaves
  rw [hx] at hleaves
  exact nomatch hleaves.1

/-- Nothing is left to settle of a step that does not fail. -/
theorem settle_of_obeys {P : RunState → Prop} {x y : Run Value} {s : RunState} (h : Obeys never P x y s)
    (line : Nat) : settle line x s = y s := by
  rw [h.same]
  unfold settle recover
  cases hx : x s with
  | done v s' => rfl
  | failed f s' => exact absurd hx (h.not_failed f s')
  | exhausted => rfl

theorem start_settle {P : RunState → Prop} {x y : Run Value} {p : Population} {a : Activation}
    (h : Obeys never P x y ⟨p, .empty, a, #[]⟩) (line : Nat) : start p a (settle line x) = start p a y := by
  unfold start
  rw [settle_of_obeys h line]

theorem bodyWithin_eq (host : Host) (fuel : Nat) (p : Population) (a : Activation) (b : Body) :
    bodyWithin host fuel p a b = start p a (execBody (strictExec host fuel) b) :=
  start_settle (restores_execBody (disciplined_exec host fuel) b _) _

/-- What a log operation leaves in the journal of a run of its own. -/
def logJournal (verbosity : Verbosity) (op : LogOperation) (arguments : Arguments) : Journal :=
  match op.perform verbosity arguments with
  | .ok (some text) => #[.log op.severity text]
  | .ok none => #[]
  | .error e => #[.fault "<native>" 0 (.population e)]

theorem actionWithin_log (host : Host) (fuel : Nat) (p : Population) (op : LogOperation)
    (receiver : Option InstanceRef) (arguments : Arguments) :
    actionWithin host fuel p (.log op) receiver arguments =
      some ⟨.null, p, logJournal host.verbosity op arguments⟩ := by
  show start p _ (settle 0 (performLog host.verbosity op arguments)) = _
  unfold start settle recover performLog logJournal
  cases op.perform host.verbosity arguments with
  | error e => rfl
  | ok line =>
    cases line with
    | none => rfl
    | some text => rfl

example : logJournal .all .info [] = #[.fault "<native>" 0 (.population (.missingArgument "message"))] := rfl

/-- What a call of a native operation gives in a run of its own: its error is reported, and counts as null. -/
def nativeResult (p : Population) (call : NativeCall) : RunResult :=
  match call.result with
  | .ok v => ⟨v, p.grantAll call.requests, #[]⟩
  | .error e => ⟨.null, p.grantAll call.requests, #[.fault "<native>" 0 (.population e)]⟩

theorem actionWithin_native (host : Host) (fuel : Nat) (p : Population) (name : String)
    (receiver : Option InstanceRef) (arguments : Arguments) :
    actionWithin host fuel p (.native name) receiver arguments =
      some (nativeResult p (host.natives name p receiver arguments)) := by
  show start p _ (settle 0 (performNative (host.natives name) receiver arguments)) = _
  unfold start settle recover nativeResult
  rw [performNative_apply]
  generalize host.natives name p receiver arguments = call
  obtain ⟨requests, result⟩ := call
  cases result with
  | ok | error => rfl

/-- No fault is left of a run. An expression never fails for the population or the scopes, and bodies and
activations never fail, in whatever state they begin. So a run of a body gives what the strict evaluator gives,
with nothing to settle, and only a log operation or a native one that is invoked by itself can leave a fault to
report. -/
theorem no_fault_left (host : Host) :
    (∀ fuel e s, s.scopes.Open → ∀ f s', eval host fuel e s = .failed f s' →
      f.isRecoverable = true ∧ isPopulationFault f = false) ∧
    (∀ fuel b s f s', execBody (exec host fuel) b s ≠ .failed f s') ∧
    (∀ fuel a b s f s', activate host fuel a b s ≠ .failed f s') ∧
    (∀ p label b arguments, runFunction host p label b arguments =
      start p (.start label none arguments) (execBody (strictExec host plenty) b)) ∧
    (∀ p label b arguments receiver, runOperation host p label b arguments receiver =
      start p (.start label (some receiver) arguments) (execBody (strictExec host plenty) b)) ∧
    (∀ p label b name receiver, runDerivedAttribute host p label b name receiver =
      start p (.derive label name receiver) (execBody (strictExec host plenty) b)) ∧
    (∀ p label b receiver arguments, runAction host p (.written label b) receiver arguments =
      start p (.start label none []) (strictActivate host plenty (.start label receiver arguments) b)) ∧
    (∀ p op receiver arguments, runAction host p (.log op) receiver arguments =
      some ⟨.null, p, logJournal host.verbosity op arguments⟩) ∧
    ∀ p name receiver arguments, runAction host p (.native name) receiver arguments =
      some (nativeResult p (host.natives name p receiver arguments)) := by
  refine ⟨?_, ?_, ?_, ?_, ?_, ?_, ?_, ?_, ?_⟩
  · intro fuel e s hs f s' hfailed
    have hleaves := ((disciplined_run host fuel).1 e s hs).leaves
    rw [hfailed] at hleaves
    obtain ⟨hrecoverable, hpopulation⟩ := Bool.and_eq_true_iff.mp hleaves.1
    exact ⟨hrecoverable, Bool.not_eq_true' _ ▸ hpopulation⟩
  · exact fun fuel b s => (restores_execBody (disciplined_exec host fuel) b s).not_failed
  · exact fun fuel a b s => (quiet_activate host fuel a b s).not_failed
  · exact fun p label b arguments => bodyWithin_eq host plenty p _ b
  · exact fun p label b arguments receiver => bodyWithin_eq host plenty p _ b
  · exact fun p label b name receiver => bodyWithin_eq host plenty p _ b
  · exact fun p label b receiver arguments => start_settle (quiet_activate host plenty _ b _) 0
  · exact fun p op receiver arguments => actionWithin_log host plenty p op receiver arguments
  · exact fun p name receiver arguments => actionWithin_native host plenty p name receiver arguments

/-- `n / 0` -/
def divisionByNothing : Expression :=
  .binary .nowhere (.var .nowhere "n") .div (.integer .nowhere 0)

/-- A division by zero is left to the statement around it. -/
theorem divisionByNothing_left_to_statement :
    nestedState.scopes.Open ∧ eval (.bare .off) 2 divisionByNothing nestedState = .failed .divisionByZero nestedState ∧
      Fault.divisionByZero.isRecoverable = true ∧ isPopulationFault .divisionByZero = false := by
  have hfailed : eval (.bare .off) 2 divisionByNothing nestedState = .failed .divisionByZero nestedState := rfl
  refine ⟨nestedState_open, hfailed, ?_⟩
  exact (no_fault_left (.bare .off)).1 2 divisionByNothing nestedState nestedState_open _ _ hfailed

end Run

end ObjectAction
