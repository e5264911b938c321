/-
The discipline goes through all forms of expressions and statements (`disciplined_congruent`). So an expression obeys
it, if its parts (`eval`) and the bodies that it calls (`activate`) do, and it fails only with a fault that ends the
statement around it; an invocation leaves the variables and the activation of its caller alone.
-/
import ObjectAction.Proofs.Run.Congruence

namespace ObjectAction

/-- The faults that an expression can end in. -/
def Fault.endsStatement (f : Fault) : Bool := f.isRecoverable && !Run.isPopulationFault f

namespace Run

open Fault (isRecoverable endsStatement)

/-! ## Actions -/

theorem quiet_performLog (verbosity : Verbosity) (op : LogOperation) (arguments : Arguments) :
    Quiet isRecoverable (performLog verbosity op arguments) (performLog verbosity op arguments) := by
  refine .bind (quiet_ask _) fun line => ?_
  cases line with
  | some text => exact .bind (quiet_note _) fun _ => quiet_pure _
  | none => exact .bind (quiet_pure _) fun _ => quiet_pure _

/-- The requests are done in any case; then comes the result, or the error. -/
theorem performNative_apply (native : Native) (receiver : Option InstanceRef) (arguments : Arguments)
    (s : RunState) : performNative native receiver arguments s =
      ask (fun _ => (native s.population receiver arguments).result)
        { s with population := s.population.grantAll (native s.population receiver arguments).requests } := rfl

theorem quiet_performNative (native : Native) (receiver : Option InstanceRef) (arguments : Arguments) :
    Quiet isRecoverable (performNative native receiver arguments) (performNative native receiver arguments) :=
  .bind (quiet_ask _) fun _ => .bind (quiet_perform _) fun _ => quiet_ask _

section

variable {activate activate' : Activation → Body → Run Value}
  (hA : ∀ a b, Quiet isRecoverable (activate a b) (activate' a b))

include hA

theorem quiet_callAction (host : Host) (action : Action) (receiver : Option InstanceRef)
    (arguments : Arguments) : Quiet isRecoverable (callAction host activate action receiver arguments)
      (callAction host activate' action receiver arguments) := by
  cases action with
  | written label body => exact hA _ body
  | log op => exact quiet_performLog _ op arguments
  | native name => exact quiet_performNative _ receiver arguments

theorem quiet_computeDerived (host : Host) (action : Action) (r : InstanceRef) (name : String) :
    Quiet isRecoverable (computeDerived host activate action r name)
      (computeDerived host activate' action r name) := by
  cases action with
  | written label body => exact hA _ body
  | log op => exact quiet_performLog _ op []
  | native name => exact quiet_performNative _ (some r) []

end

theorem quiet_loopPosition (operator : String) (test : LoopCursor → Bool) (e : Expression) :
    Quiet isRecoverable (loopPosition operator test e) (loopPosition operator test e) := by
  unfold loopPosition
  split
  · refine .bind (quiet_look _) fun cursor => ?_
    cases cursor with
    | some c => exact quiet_pure _
    | none => exact quiet_fail rfl
  · exact quiet_fail rfl

theorem quiet_expectIndex (v : Value) : Quiet isRecoverable (expectIndex v) (expectIndex v) := by
  unfold expectIndex
  split
  · split
    · exact quiet_fail rfl
    · exact quiet_pure _
  · exact quiet_fail rfl

theorem quiet_isComputed (target : Expression) (name : String) :
    Quiet isRecoverable (isComputed target name) (isComputed target name) := by
  unfold isComputed
  split
  · exact quiet_look _
  · exact quiet_pure _

/-! ## All forms -/

theorem disciplined_sequential (F : Fault → Bool) (k : Nat) : Sequential fun _ x y => Disciplined F k x y where
  pure a := (quiet_pure a).disciplined
  bind := Disciplined.bind

theorem disciplined_congruent : Congruent fun _ x y => Disciplined isRecoverable 0 x y where
  toSequential := disciplined_sequential isRecoverable 0
  exhausted := quiet_exhausted.disciplined
  fail hf := (quiet_fail hf).disciplined
  look _ := (quiet_look _).disciplined
  ask f := (quiet_ask f).disciplined
  perform f := (quiet_perform f).disciplined
  install := disciplined_install
  readVariable name := (quiet_readVariable name).disciplined
  updateArray name _ hg h := disciplined_updateArray name hg h
  withCandidate hx := hx.withCandidate
  inBlock hx := hx.inBlock.disciplined
  loop hx c item refs :=
    -- the loops around this one are out of reach, so the body keeps all and the pass all but one
    ((disciplined_sequential isRecoverable 1).passes disciplined_setPass disciplined_install hx.weaken item 0
      refs).withLoop c

/-- The result of the attribute is the part of an activation that a step may change. -/
theorem disciplined_withResult (v : Value) :
    Disciplined isRecoverable 0 (modify (·.withResult v)) (modify (·.withResult v)) :=
  fun _ hs => ⟨rfl, hs.extends_refl, rfl, rfl, rfl, rfl, rfl⟩

theorem disciplined_host (host : Host) : HostsRelated (fun _ x y => Disciplined isRecoverable 0 x y) host host where
  log op arguments := (quiet_performLog host.verbosity op arguments).disciplined
  natives := rfl

/-! ## Expressions -/

section

variable {eval eval' : Expression → Run Value} {activate activate' : Activation → Body → Run Value}
  (hE : ∀ e, Disciplined isRecoverable 0 (eval e) (eval' e))
  (hA : ∀ a b, Quiet isRecoverable (activate a b) (activate' a b)) (host : Host)

include hE hA

theorem disciplined_invoke (callee : Callee) (name : String) (arguments : List Argument) :
    Disciplined isRecoverable 0 (invoke host eval activate callee name arguments)
      (invoke host eval' activate' callee name arguments) :=
  disciplined_congruent.invoke (disciplined_host host) (fun a b => (hA a b).disciplined) hE callee name arguments

/-- What is left of the faults of an expression ends the statement around it. -/
theorem disciplined_evalStep (e : Expression) :
    Disciplined endsStatement 0 (evalStep host eval activate e) (evalStep host eval' activate' e) := by
  have hform := disciplined_congruent.evalForm_all (disciplined_host host) (fun a b => (hA a b).disciplined) hE
    (quiet_look computed).disciplined e
  refine hform.recover (fun f => ?_) fun f hf hp => ?_
  · exact (Quiet.bind (quiet_report _ f) fun _ => quiet_pure _).disciplined
  · rw [endsStatement, hf, hp]
    rfl

end

end Run

end ObjectAction
