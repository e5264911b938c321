/-
A body sees its own variables only. To look at the newest scope alone goes through all forms of expressions and
statements, so each layer of the evaluator does that if the layers with one unit of fuel less do, and a body that is
called has a scope of its own.

Main statement: `detached_activate`.
-/
import ObjectAction.Proofs.Run.Congruence
import ObjectAction.Proofs.Run.Frame
import ObjectAction.Run.Evaluation

namespace ObjectAction

namespace Run

theorem detached_performLog (verbosity : Verbosity) (op : LogOperation) (arguments : Arguments) :
    Detached (performLog verbosity op arguments) := by
  refine .bind (detached_ask _) fun line => ?_
  cases line with
  | some text => exact .bind (detached_note _) fun _ => detached_pure _
  | none => exact detached_pure _

theorem detached_performNative (native : Native) (receiver : Option InstanceRef) (arguments : Arguments) :
    Detached (performNative native receiver arguments) :=
  .bind (detached_ask _) fun _ => .bind (detached_perform _) fun _ => detached_ask _

theorem detached_computeDerived {activate : Activation → Body → Run Value} (hA : ∀ a b, Detached (activate a b))
    (host : Host) (action : Action) (r : InstanceRef) (name : String) :
    Detached (computeDerived host activate action r name) := by
  cases action with
  | written label body => exact hA _ body
  | log op => exact detached_performLog _ op []
  | native name => exact detached_performNative _ (some r) []

theorem detached_setPass (index : Nat) : Detached (setPass index) := by
  refine detached_modify fun s t earlier => ?_
  obtain ⟨p, scopes, ⟨label, receiver, arguments, derived, candidates, loops⟩, journal⟩ := s
  cases loops with
  | nil | cons => rfl

theorem detached_execBody {exec : Statement → Run Signal} {b : Body} (h : Framed (execBlock exec b.block)) :
    Detached (execBody exec b) := by
  refine .bind h.inScope fun signal => .bind (detached_look fun _ _ _ => rfl) fun cell => ?_
  split
  · exact detached_pure _
  · exact detached_pure _

/-! ## All forms -/

/-- A framed step is related to itself. -/
def SameFramed ⦃α : Type⦄ (x y : Run α) : Prop := y = x ∧ Framed x

theorem Framed.same {α : Type} {x : Run α} (h : Framed x) : SameFramed x x := ⟨rfl, h⟩

theorem sameFramed_bind {α β : Type} {x y : Run α} {f g : α → Run β} (hx : SameFramed x y)
    (hf : ∀ a, SameFramed (f a) (g a)) : SameFramed (x >>= f) (y >>= g) := by
  obtain ⟨rfl, hx⟩ := hx
  obtain rfl : g = f := funext fun a => (hf a).1
  exact (hx.bind fun a => (hf a).2).same

theorem sameFramed_between {α : Type} {x y : Run α} (hx : SameFramed x y) (enter leave : Activation → Activation) :
    SameFramed (between enter leave x) (between enter leave y) := by
  obtain ⟨rfl, hx⟩ := hx
  exact (hx.between enter leave).same

theorem sameFramed_inBlock {α : Type} {x y : Run α} (hx : SameFramed x y) : SameFramed (inBlock x) (inBlock y) := by
  obtain ⟨rfl, hx⟩ := hx
  exact hx.inBlock.same

theorem sameFramed_sequential : Sequential SameFramed where
  pure a := (framed_pure a).same
  bind := sameFramed_bind

theorem sameFramed_congruent : Congruent SameFramed where
  toSequential := sameFramed_sequential
  exhausted := detached_exhausted.framed.same
  fail _ := (detached_fail _).framed.same
  look hf := (detached_look fun s t earlier => hf s (s.moved t earlier) rfl).framed.same
  ask f := (framed_ask f).same
  perform f := (detached_perform f).framed.same
  install name v := (framed_install name v).same
  readVariable name := (framed_readVariable name).same
  updateArray name _ _ h := (framed_updateArray name _ h).same
  withCandidate hx _ := sameFramed_between hx _ _
  inBlock := sameFramed_inBlock
  loop hx _ item refs := by
    refine sameFramed_between (sameFramed_sequential.passes (fun index => ?_) (fun name v => ?_) hx item 0 refs) _ _
    · exact (detached_setPass index).framed.same
    · exact (framed_install name v).same

/-! ## Runs -/

theorem framed_run (host : Host) (fuel : Nat) :
    (∀ e, Framed (eval host fuel e)) ∧ (∀ st, Framed (exec host fuel st)) ∧
    ∀ a b, Detached (activate host fuel a b) := by
  induction fuel with
  | zero =>
    exact ⟨fun _ => detached_exhausted.framed, fun _ => detached_exhausted.framed, fun _ _ => detached_exhausted⟩
  | succ fuel ih =>
    obtain ⟨hE, hX, hA⟩ := ih
    have hhost : HostsRelated SameFramed host host :=
      ⟨fun op arguments => (detached_performLog _ op arguments).framed.same, rfl⟩
    have hcall : ∀ a b, SameFramed (activate host fuel a b) (activate host fuel a b) :=
      fun a b => (hA a b).framed.same
    have hread : SameFramed (look computed) (look computed) := (detached_look fun _ _ _ => rfl).framed.same
    have hwrite : ∀ v, SameFramed (modify (·.withResult v)) (modify (·.withResult v)) :=
      fun v => (detached_modify fun _ _ _ => rfl).framed.same
    refine ⟨fun e => ?_, fun st => ?_, fun a b => ?_⟩
    · have hform := sameFramed_congruent.evalForm_all hhost hcall (fun e => (hE e).same) hread e
      exact hform.2.reporting _ _ _
    · have hform := sameFramed_congruent.execForm_all fuel (fun e => (hE e).same) (fun st => (hX st).same) hhost hcall
        hread hwrite st
      exact hform.2.reporting _ _ _
    · exact (detached_execBody (sameFramed_congruent.execBlock (fun st => (hX st).same) b.block).2).within a

/-- A call neither sees the variables of its caller nor changes them, and it does not matter what the journal holds. -/
theorem detached_activate (host : Host) (fuel : Nat) (a : Activation) (b : Body) :
    Detached (activate host fuel a b) :=
  (framed_run host fuel).2.2 a b

end Run

end ObjectAction
