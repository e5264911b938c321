/-
What the steps of a statement do to a run, if expressions (`eval`), the statements of its blocks (`exec`) and
the bodies that it calls (`activate`) obey the discipline. A statement obeys it as well and never fails; a block
binds no name outside itself, and a body leaves the variables as they were.
-/
import ObjectAction.Proofs.Run.Expression

namespace ObjectAction

/-- No fault at all. -/
def Fault.never (_ : Fault) : Bool := false

namespace Run

open Fault (isRecoverable never)

variable {F : Fault → Bool}

/-! ## Blocks and bodies -/

section

variable {exec exec' : Statement → Run Signal} (hX : ∀ st, Disciplined F 0 (exec st) (exec' st))

include hX

theorem disciplined_execAll (sts : List Statement) : Disciplined F 0 (execAll exec sts) (execAll exec' sts) :=
  (disciplined_sequential F 0).execAll hX sts

theorem keepsNames_execBlock (b : Block) : KeepsNames F (execBlock exec b) (execBlock exec' b) :=
  (disciplined_execAll hX b.statements).inBlock

theorem disciplined_execBlock (b : Block) : Disciplined F 0 (execBlock exec b) (execBlock exec' b) :=
  (keepsNames_execBlock hX b).disciplined

/-- The result of a body depends on what its block leaves, and nothing more is changed for it. -/
theorem restores_execBody (b : Body) : Restores F (execBody exec b) (execBody exec' b) := by
  refine .bind (keepsNames_execBlock hX b.block).inScope fun signal => ?_
  refine .bind (quiet_look _) fun cell => ?_
  split
  · exact quiet_pure _
  · exact quiet_pure _

end

/-! ## Selections -/

theorem quiet_candidatesOf (cardinality : Cardinality) (condition : Option Expression) (className : String) :
    Quiet isRecoverable (candidatesOf cardinality condition className)
      (candidatesOf cardinality condition className) := by
  unfold candidatesOf
  split
  · exact quiet_ask _
  · exact .bind (quiet_ask _) fun r => quiet_pure _

theorem quiet_startInstances (start : NavigationStart) :
    Quiet isRecoverable (startInstances start) (startInstances start) := by
  cases start with
  | self => exact .bind quiet_receiver fun r => quiet_pure _
  | selected => exact .bind quiet_selected fun r => quiet_pure _
  | var name => exact .bind (quiet_readVariable name) fun v => quiet_expectInstances _ v

theorem quiet_hop (step : NavigationStep) (refs : List InstanceRef) :
    Quiet isRecoverable (hop step refs) (hop step refs) := by
  induction refs with
  | nil => exact quiet_pure _
  | cons r rest ih => exact .bind (quiet_ask _) fun reached => .bind ih fun others => quiet_pure _

theorem quiet_followChain (chain : List NavigationStep) (refs : List InstanceRef) :
    Quiet isRecoverable (followChain chain refs) (followChain chain refs) := by
  induction chain generalizing refs with
  | nil => exact quiet_pure _
  | cons step rest ih => exact .bind (quiet_hop step refs) fun reached => ih _

/-! ## Statements -/

/-- Every fault of a statement is reported, since none is one of the scopes. -/
theorem disciplined_execStep {eval eval' : Expression → Run Value} {exec exec' : Statement → Run Signal}
    {activate activate' : Activation → Body → Run Value} (hE : ∀ e, Disciplined isRecoverable 0 (eval e) (eval' e))
    (hX : ∀ st, Disciplined isRecoverable 0 (exec st) (exec' st))
    (hA : ∀ a b, Quiet isRecoverable (activate a b) (activate' a b)) (host : Host) (fuel : Nat)
    (st : Statement) :
    Disciplined never 0 (execStep host fuel eval exec activate st)
      (execStep host fuel eval' exec' activate' st) := by
  have hform := disciplined_congruent.execForm_all fuel hE hX (disciplined_host host)
    (fun a b => (hA a b).disciplined) (quiet_look computed).disciplined disciplined_withResult st
  refine hform.recover (fun f => ?_) fun f hf hp => ?_
  · exact (Quiet.bind (quiet_report _ f) fun _ => quiet_pure _).disciplined
  · rw [hf] at hp
    cases hp

end Run

end ObjectAction
