/-
Relations between steps that the evaluator respects. A relation is a congruence if it holds between each single step
and itself, and between two composite steps if it holds between their parts. Then it holds between two layers of the
evaluator if it holds between the layers with one unit of fuel less, whatever the relation says.

What the running body does with the attribute that it computes is left open, since some relations are about that: the
lemmas about places and about assignments ask for it.

Main statements: `Congruent.evalForm` and `Congruent.execForm`.
-/
import ObjectAction.Proofs.Run.Discipline
import ObjectAction.Run.Statement

namespace ObjectAction

/-- The activation with another result of the attribute that it computes. -/
def Activation.withResult (a : Activation) (v : Value) : Activation :=
  { a with derived := a.derived.map ({ · with result := v }) }

/-- The state with another result of the attribute that its activation computes. -/
def RunState.withResult (s : RunState) (v : Value) : RunState := { s with activation := s.activation.withResult v }

/-- The place is the attribute that the running body computes, or an index of it. -/
def Place.isComputed : Place → Bool
  | .derived => true
  | .index base _ => base.isComputed
  | _ => false

namespace Run

/-- A relation that goes through sequences. -/
structure Sequential (R : ∀ ⦃α : Type⦄, Run α → Run α → Prop) : Prop where
  pure : ∀ {α : Type} (a : α), R (Pure.pure a) (Pure.pure a)
  bind : ∀ {α β : Type} {x y : Run α} {f g : α → Run β}, R x y → (∀ a, R (f a) (g a)) → R (x >>= f) (y >>= g)

/-- A relation that holds between each step and itself, and goes through all that is made of steps. -/
structure Congruent (R : ∀ ⦃α : Type⦄, Run α → Run α → Prop) : Prop extends Sequential R where
  exhausted : ∀ {α : Type}, R (exhausted : Run α) exhausted
  fail : ∀ {α : Type} {f : Fault}, f.isRecoverable = true → R (fail f : Run α) (fail f)
  /-- To look at the activation, but not at the attribute that it computes. -/
  look : ∀ {α : Type} {f : RunState → α},
    (∀ s s', s'.activation.withResult .null = s.activation.withResult .null → f s' = f s) → R (look f) (look f)
  ask : ∀ {α : Type} (f : Population → Except PopulationError α), R (ask f) (ask f)
  perform : ∀ {α : Type} (f : Population → Except PopulationError (α × Population)), R (perform f) (perform f)
  install : ∀ (name : String) (v : Value), R (install name v) (install name v)
  readVariable : ∀ name : String, R (readVariable name) (readVariable name)
  updateArray : ∀ {α : Type} (name : String) {g : List Value → Except Fault (List Value)},
    (∀ items, Recoverable (g items)) → ∀ h : List Value → α, R (updateArray name g h) (updateArray name g h)
  withCandidate : ∀ {α : Type} {x y : Run α}, R x y → ∀ r, R (withCandidate r x) (withCandidate r y)
  inBlock : ∀ {α : Type} {x y : Run α}, R x y → R (inBlock x) (inBlock y)
  loop : ∀ {x y : Run Signal}, R x y → ∀ (c : LoopCursor) (item : String) (refs : List InstanceRef),
    R (withLoop c (passes item x 0 refs)) (withLoop c (passes item y 0 refs))

variable {R : ∀ ⦃α : Type⦄, Run α → Run α → Prop}

/-- The log operations of the two hosts are related, and the native operations are the same. -/
structure HostsRelated (R : ∀ ⦃α : Type⦄, Run α → Run α → Prop) (host host' : Host) : Prop where
  log : ∀ op arguments, R (performLog host.verbosity op arguments) (performLog host'.verbosity op arguments)
  natives : host'.natives = host.natives

theorem Sequential.execAll (h : Sequential R) {exec exec' : Statement → Run Signal}
    (hX : ∀ st, R (exec st) (exec' st)) (sts : List Statement) : R (execAll exec sts) (execAll exec' sts) := by
  induction sts with
  | nil => exact h.pure _
  | cons st rest ih =>
    refine h.bind (hX st) fun signal => ?_
    cases signal with
    | normal => exact ih
    | returned | broke | continued | stopped => exact h.pure _

theorem Sequential.afterPass (h : Sequential R) {rest rest' : Run Signal} (hrest : R rest rest') (signal : Signal) :
    R (afterPass signal rest) (afterPass signal rest') := by
  cases signal with
  | normal | continued => exact hrest
  | broke | returned | stopped => exact h.pure _

/-- The passes of a loop, which move its cursor. -/
theorem Sequential.passes (h : Sequential R) (hpass : ∀ index, R (setPass index) (setPass index))
    (hinstall : ∀ name v, R (install name v) (install name v)) {body body' : Run Signal} (hbody : R body body')
    (item : String) (index : Nat) (refs : List InstanceRef) :
    R (passes item body index refs) (passes item body' index refs) := by
  induction refs generalizing index with
  | nil => exact h.pure _
  | cons r rest ih =>
    refine h.bind (hpass index) fun _ => h.bind (hinstall item _) fun _ => ?_
    exact h.bind hbody fun signal => h.afterPass (ih (index + 1)) signal

namespace Congruent

variable (h : Congruent R)

include h

/-! ## Values and references -/

theorem ofExcept {α : Type} {r : Except Fault α} (hr : Recoverable r) : R (ofExcept r) (ofExcept r) := by
  cases r with
  | ok a => exact h.pure a
  | error f => exact h.fail (hr f rfl)

theorem change (f : Population → Except PopulationError Population) : R (change f) (change f) := h.perform _

theorem expectRef (v : Value) : R (expectRef v) (expectRef v) := by
  unfold Run.expectRef
  split
  · exact h.pure _
  · exact h.fail rfl

theorem expectInstances (expected : String) (v : Value) :
    R (expectInstances expected v) (expectInstances expected v) := by
  unfold Run.expectInstances
  split
  · exact h.pure _
  · exact h.fail rfl

theorem expectIndex (v : Value) : R (expectIndex v) (expectIndex v) := by
  unfold Run.expectIndex
  split
  · split
    · exact h.fail rfl
    · exact h.pure _
  · exact h.fail rfl

theorem readRef (name : String) : R (readRef name) (readRef name) := h.bind (h.readVariable name) h.expectRef

theorem receiver : R receiver receiver := by
  refine h.bind (h.look fun s s' hs => congrArg (·.receiver) hs) fun r => ?_
  cases r with
  | some r => exact h.pure r
  | none => exact h.fail rfl

theorem selected : R selected selected := by
  refine h.bind (h.look fun s s' hs => congrArg (·.candidates.head?) hs) fun r => ?_
  cases r with
  | some r => exact h.pure r
  | none => exact h.fail rfl

/-! ## Places -/

section

variable {derive derive' : Action → InstanceRef → String → Run Value}
  (hd : ∀ a r name, R (derive a r name) (derive' a r name))

include hd

theorem get (p : Place) (hread : p.isComputed = true → R (get derive .derived) (get derive' .derived)) :
    R (get derive p) (get derive' p) := by
  induction p with
  | value v => exact h.pure v
  | var name => exact h.readVariable name
  | field r name =>
    refine h.bind (h.ask _) fun content => ?_
    cases content with
    | stored v => exact h.pure v
    | derived a => exact hd a r name
  | index base position ih =>
    by_cases hvar : ∃ name, base = .var name
    · obtain ⟨name, rfl⟩ := hvar
      exact h.updateArray name (growTo_recoverable · position) (·.getD position .null)
    · rw [get_index _ (not_exists.mp hvar), get_index _ (not_exists.mp hvar)]
      exact h.bind (ih hread) fun v => h.bind (h.ofExcept (elements_recoverable _)) fun items => h.pure _
  | derived => exact hread rfl

theorem set (p : Place) (v : Value)
    (hread : p.isComputed = true → R (Run.get derive .derived) (Run.get derive' .derived))
    (hwrite : p.isComputed = true → ∀ v, R (set derive .derived v) (set derive' .derived v)) :
    R (set derive p v) (set derive' p v) := by
  induction p generalizing v with
  | value w => exact h.fail rfl
  | var name => exact h.install name v
  | field r name => exact h.change _
  | index base position ih =>
    by_cases hvar : ∃ name, base = .var name
    · obtain ⟨name, rfl⟩ := hvar
      exact h.updateArray name (store_recoverable · position v) fun _ => ()
    · rw [set_index _ (not_exists.mp hvar), set_index _ (not_exists.mp hvar)]
      refine h.bind (h.get hd base hread) fun w => h.bind (h.ofExcept (elements_recoverable _)) fun items => ?_
      exact h.bind (h.ofExcept (store_recoverable _ _ _)) fun items' => ih _ hread hwrite
  | derived => exact hwrite rfl v

end

/-! ## Parts of an expression -/

theorem loopPosition (operator : String) (test : LoopCursor → Bool) (e : Expression) :
    R (loopPosition operator test e) (loopPosition operator test e) := by
  unfold Run.loopPosition
  split
  · rename_i name
    refine h.bind (h.look fun s s' hs => congrArg (·.loops.find? (·.set = name)) hs) fun cursor => ?_
    cases cursor with
    | some c => exact h.pure _
    | none => exact h.fail rfl
  · exact h.fail rfl

theorem isComputed (target : Expression) (name : String) : R (isComputed target name) (isComputed target name) := by
  unfold Run.isComputed
  split
  · refine h.look fun s s' hs => ?_
    have hname : ∀ a : Activation, a.derived.any (·.name = name) = (a.withResult .null).derived.any (·.name = name) :=
      fun a => by cases hcell : a.derived <;> simp [Activation.withResult, hcell]
    rw [hname, hs, ← hname]
  · exact h.pure _

section

variable {eval eval' : Expression → Run Value} (hE : ∀ e, R (eval e) (eval' e))

include hE

theorem evalUnary (op : UnaryOperator) (operand : Expression) :
    R (evalUnary eval op operand) (evalUnary eval' op operand) := by
  have hpure : ∀ g : Value → Value, R (do return g (← eval operand)) (do return g (← eval' operand)) :=
    fun g => h.bind (hE operand) fun v => h.pure (g v)
  cases op with
  | first => exact h.loopPosition "first" _ operand
  | last => exact h.loopPosition "last" _ operand
  | minus => exact h.bind (hE operand) fun v => h.ofExcept (negate_recoverable v)
  | plus => exact h.bind (hE operand) fun v => h.ofExcept (affirm_recoverable v)
  | not | empty | notEmpty | cardinality => exact hpure _

theorem evalRef (e : Expression) : R (evalRef eval e) (evalRef eval' e) := h.bind (hE e) h.expectRef

theorem evalArguments (done : Arguments) (arguments : List Argument) :
    R (evalArguments eval done arguments) (evalArguments eval' done arguments) := by
  induction arguments generalizing done with
  | nil => exact h.pure done
  | cons argument rest ih =>
    obtain ⟨extent, name, value⟩ := argument
    exact h.bind (hE value) fun v => ih _

theorem place (e : Expression) : R (place eval e) (place eval' e) := by
  fun_induction Run.place eval e with
  | case1 extent name => exact h.pure _
  | case2 extent target name =>
    refine h.bind (h.isComputed target name) fun computed => ?_
    cases computed with
    | true => exact h.pure _
    | false => exact h.bind (h.evalRef hE target) fun r => h.pure _
  | case3 extent target position ih =>
    refine h.bind ih fun base => h.bind (hE position) fun v => ?_
    exact h.bind (h.expectIndex v) fun i => h.pure _
  | case4 e hvar hfield hindex =>
    rw [Run.place]
    · exact h.bind (hE e) fun v => h.pure _
    · exact hvar
    · exact hfield
    · exact hindex

theorem resolve (callee : Callee) (name : String) : R (resolve eval callee name) (resolve eval' callee name) := by
  have hask : ∀ f : Population → Except PopulationError Action,
      R (do return (← Run.ask f, (none : Option InstanceRef))) (do return (← Run.ask f, none)) :=
    fun f => h.bind (h.ask f) fun _ => h.pure _
  cases callee with
  | function | unmarked owner | bridge entity | ofClass className | port port => exact hask _
  | receiver target => exact h.bind (h.evalRef hE target) fun r => h.bind (h.ask _) fun _ => h.pure _

end

/-! ## Expressions -/

section

theorem performNative (native : Native) (receiver : Option InstanceRef) (arguments : Arguments) :
    R (performNative native receiver arguments) (performNative native receiver arguments) :=
  h.bind (h.ask _) fun _ => h.bind (h.change _) fun _ => h.ask _

variable {host host' : Host} (hhost : HostsRelated R host host')
  {activate activate' : Activation → Body → Run Value} (hA : ∀ a b, R (activate a b) (activate' a b))

include hhost hA

theorem callAction (action : Action) (receiver : Option InstanceRef) (arguments : Arguments) :
    R (callAction host activate action receiver arguments)
      (callAction host' activate' action receiver arguments) := by
  cases action with
  | written label body => exact hA _ body
  | log op => exact hhost.log op arguments
  | native name =>
    unfold Run.callAction
    rw [hhost.natives]
    exact h.performNative _ receiver arguments

theorem computeDerived (action : Action) (r : InstanceRef) (name : String) :
    R (computeDerived host activate action r name) (computeDerived host' activate' action r name) := by
  cases action with
  | written label body => exact hA _ body
  | log op => exact hhost.log op []
  | native name =>
    unfold Run.computeDerived
    rw [hhost.natives]
    exact h.performNative _ (some r) []

variable {eval eval' : Expression → Run Value} (hE : ∀ e, R (eval e) (eval' e))

include hE

theorem invoke (callee : Callee) (name : String) (arguments : List Argument) :
    R (invoke host eval activate callee name arguments)
      (invoke host' eval' activate' callee name arguments) := by
  refine h.bind (h.resolve hE callee name) fun ⟨action, receiver⟩ => ?_
  refine h.bind (h.evalArguments hE [] arguments) fun evaluated => ?_
  exact h.callAction hhost hA action receiver evaluated

/-- All forms but those that denote a place. -/
theorem evalForm (e : Expression)
    (hplace : e.isAssignable = true → R (do Run.get (Run.computeDerived host activate) (← Run.place eval e))
      (do Run.get (Run.computeDerived host' activate') (← Run.place eval' e))) :
    R (evalForm host eval activate e) (evalForm host' eval' activate' e) := by
  cases e with
  | integer | real | string | boolean => exact h.pure _
  | enumerator extent enumeration name => exact h.ask (·.findEnumerator enumeration name)
  | self => exact h.bind h.receiver fun r => h.pure _
  | selected => exact h.bind h.selected fun r => h.pure _
  | parameter extent name =>
    refine h.bind (h.look fun s s' hs => congrArg (Table.value? ·.arguments name) hs) fun argument => ?_
    cases argument with
    | some v => exact h.pure v
    | none => exact h.fail rfl
  | var | field | index => exact hplace rfl
  | unary extent op operand => exact h.evalUnary hE op operand
  | binary extent left op right =>
    exact h.bind (hE left) fun l => h.bind (hE right) fun r => h.ofExcept (binary_recoverable op l r)
  | invoke extent callee name arguments => exact h.invoke hhost hA hE callee name arguments

/-- All forms, if the relation goes through reading the attribute that the body computes. -/
theorem evalForm_all (hread : R (Run.look computed) (Run.look computed)) (e : Expression) :
    R (Run.evalForm host eval activate e) (Run.evalForm host' eval' activate' e) := by
  refine h.evalForm hhost hA hE e fun _ => ?_
  exact h.bind (h.place hE e) fun p => h.get (h.computeDerived hhost hA) p fun _ => hread

end

/-! ## Blocks and loops -/

section

variable {exec exec' : Statement → Run Signal} (hX : ∀ st, R (exec st) (exec' st))

include hX

theorem execBlock (b : Block) : R (execBlock exec b) (execBlock exec' b) := h.inBlock (h.execAll hX b.statements)

theorem forEach (item set : String) (b : Block) :
    R (forEach item set (Run.execBlock exec b)) (forEach item set (Run.execBlock exec' b)) := by
  refine h.bind (h.readVariable set) fun v => h.bind (h.expectInstances _ v) fun refs => ?_
  exact h.loop (h.execBlock hX b) _ item refs

omit hX in
/-- Both loops have the same number of passes left. -/
theorem whileTrue {condition condition' : Run Value} {body body' : Run Signal} (hcondition : R condition condition')
    (hbody : R body body') (fuel : Nat) : R (whileTrue condition body fuel) (whileTrue condition' body' fuel) := by
  induction fuel with
  | zero => exact h.exhausted
  | succ fuel ih =>
    refine h.bind hcondition fun v => ?_
    cases v.isTruthy with
    | true => exact h.bind hbody fun signal => h.afterPass ih signal
    | false => exact h.pure _

variable {eval eval' : Expression → Run Value} (hE : ∀ e, R (eval e) (eval' e))

include hE

theorem execElifs (otherwise : Option Block) (elifs : List Elif) :
    R (execElifs eval exec otherwise elifs) (execElifs eval' exec' otherwise elifs) := by
  induction elifs with
  | nil =>
    cases otherwise with
    | some b => exact h.execBlock hX b
    | none => exact h.pure _
  | cons elif rest ih =>
    obtain ⟨extent, condition, b⟩ := elif
    refine h.bind (hE condition) fun v => ?_
    cases v.isTruthy with
    | true => exact h.execBlock hX b
    | false => exact ih

end

/-! ## Selections, links and events -/

section

variable {eval eval' : Expression → Run Value} (hE : ∀ e, R (eval e) (eval' e))

include hE

theorem satisfies (condition : Expression) (r : InstanceRef) :
    R (satisfies eval condition r) (satisfies eval' condition r) :=
  h.bind (h.inBlock (h.withCandidate (hE condition) r)) fun _ => h.pure _

theorem filter (condition : Expression) (single : Bool) (refs : List InstanceRef) :
    R (filter eval condition single refs) (filter eval' condition single refs) := by
  induction refs with
  | nil => exact h.pure _
  | cons r rest ih =>
    refine h.bind (h.satisfies hE condition r) fun holds => ?_
    cases holds with
    | false => exact ih
    | true =>
      cases single with
      | true => exact h.pure _
      | false => exact h.bind ih fun refs => h.pure _

theorem keep (cardinality : Cardinality) (condition : Option Expression) (candidates : List InstanceRef) :
    R (keep eval cardinality condition candidates) (keep eval' cardinality condition candidates) := by
  cases condition with
  | none => exact h.pure _
  | some condition => exact h.filter hE condition _ candidates

theorem recipientOf (target : EventTarget) : R (recipientOf eval target) (recipientOf eval' target) := by
  cases target with
  | ofClass | creator => exact h.pure _
  | receiver e => exact h.bind (h.evalRef hE e) fun r => h.pure _

theorem buildEvent (spec : EventSpec) (target : EventTarget) :
    R (buildEvent eval spec target) (buildEvent eval' spec target) := by
  refine h.bind (h.evalArguments hE [] spec.arguments) fun arguments => ?_
  exact h.bind (h.recipientOf hE target) fun recipient => h.pure _

end

theorem candidatesOf (cardinality : Cardinality) (condition : Option Expression) (className : String) :
    R (candidatesOf cardinality condition className) (candidatesOf cardinality condition className) := by
  unfold Run.candidatesOf
  split
  · exact h.ask _
  · exact h.bind (h.ask _) fun r => h.pure _

theorem startInstances (start : NavigationStart) : R (startInstances start) (startInstances start) := by
  cases start with
  | self => exact h.bind h.receiver fun r => h.pure _
  | selected => exact h.bind h.selected fun r => h.pure _
  | var name => exact h.bind (h.readVariable name) fun v => h.expectInstances _ v

theorem hop (step : NavigationStep) (refs : List InstanceRef) : R (hop step refs) (hop step refs) := by
  induction refs with
  | nil => exact h.pure _
  | cons r rest ih => exact h.bind (h.ask _) fun reached => h.bind ih fun others => h.pure _

theorem followChain (chain : List NavigationStep) (refs : List InstanceRef) :
    R (followChain chain refs) (followChain chain refs) := by
  induction chain generalizing refs with
  | nil => exact h.pure _
  | cons step rest ih => exact h.bind (h.hop step refs) fun reached => ih _

theorem acrossLink (operation : Population → InstanceRef → InstanceRef → String → Option String →
      Except PopulationError Population) (source target : String) (relationship : Relationship)
    (link : Option String) :
    R (acrossLink operation source target relationship link)
      (acrossLink operation source target relationship link) := by
  refine h.bind (h.readRef source) fun a => h.bind (h.readRef target) fun b => ?_
  cases link with
  | none => exact h.change _
  | some name => exact h.bind (h.readRef name) fun l => h.bind (h.change _) fun _ => h.change _

/-! ## Statements -/

section

variable {host host' : Host} (fuel : Nat) {activate activate' : Activation → Body → Run Value}
  {eval eval' : Expression → Run Value} (hE : ∀ e, R (eval e) (eval' e))
  {exec exec' : Statement → Run Signal} (hX : ∀ st, R (exec st) (exec' st))

include hE hX

/-- All forms but assignments. -/
theorem execForm (st : Statement)
    (hassign : ∀ extent target value, st = .assign extent target value →
      R (execForm host fuel eval exec activate st) (execForm host' fuel eval' exec' activate' st)) :
    R (execForm host fuel eval exec activate st) (execForm host' fuel eval' exec' activate' st) := by
  -- most forms end normally after their last step
  have hnormal : ∀ {α : Type} {x y : Run α}, R x y →
      R (do let _ ← x; return Signal.normal) (do let _ ← y; return .normal) :=
    fun hxy => h.bind hxy fun _ => h.pure _
  have hselect : ∀ name cardinality condition candidates,
      R (do
          bindSelection name cardinality (← Run.keep eval cardinality condition candidates)
          return Signal.normal)
        (do
          bindSelection name cardinality (← Run.keep eval' cardinality condition candidates)
          return Signal.normal) :=
    fun name cardinality condition candidates =>
      h.bind (h.keep hE cardinality condition candidates) fun refs => hnormal (h.install name _)
  cases st with
  | breakLoop | continueLoop | stop => exact h.pure _
  | returnValue extent value =>
    cases value with
    | none => exact h.pure _
    | some e => exact h.bind (hE e) fun v => h.pure _
  | assign extent target value => exact hassign extent target value rfl
  | invoke extent invocation => exact hnormal (hE invocation)
  | create extent name className =>
    refine h.bind (h.perform _) fun r => ?_
    cases name with
    | some name => exact hnormal (h.install name _)
    | none => exact hnormal (h.pure ())
  | delete extent name => exact h.bind (h.readRef name) fun r => hnormal (h.change _)
  | relate extent source target relationship link | unrelate extent source target relationship link =>
    exact hnormal (h.acrossLink _ source target relationship link)
  | selectFrom extent cardinality name className condition =>
    refine h.bind (h.candidatesOf cardinality condition className) fun candidates => ?_
    exact hselect name cardinality condition candidates
  | selectRelated extent cardinality name start chain condition =>
    refine h.bind (h.startInstances start) fun refs => h.bind (h.followChain chain refs) fun reached => ?_
    exact hselect name cardinality condition reached
  | forEach extent item set b => exact h.forEach hX item set b
  | whileLoop extent condition b => exact h.whileTrue (hE condition) (h.execBlock hX b) fuel
  | branch extent condition b elifs otherwise =>
    refine h.bind (hE condition) fun v => ?_
    cases v.isTruthy with
    | true => exact h.execBlock hX b
    | false => exact h.execElifs hX hE otherwise elifs
  | generate extent spec target => exact h.bind (h.buildEvent hE spec target) fun e => hnormal (h.change _)
  | createEvent extent name spec target =>
    exact h.bind (h.buildEvent hE spec target) fun e => hnormal (h.install name _)
  | generateCreated extent name =>
    refine h.bind (h.readVariable name) fun v => ?_
    split
    · exact hnormal (h.change _)
    · exact hnormal (h.fail rfl)

/-- All forms, if the relation goes through reading and writing the attribute that the body computes. -/
theorem execForm_all (hhost : HostsRelated R host host') (hA : ∀ a b, R (activate a b) (activate' a b))
    (hread : R (Run.look computed) (Run.look computed))
    (hwrite : ∀ v, R (Run.modify (·.withResult v)) (Run.modify (·.withResult v))) (st : Statement) :
    R (Run.execForm host fuel eval exec activate st) (Run.execForm host' fuel eval' exec' activate' st) := by
  refine h.execForm fuel hE hX st ?_
  rintro extent target value rfl
  refine h.bind (hE value) fun v => h.bind (h.place hE target) fun p => h.bind ?_ fun _ => h.pure _
  exact h.set (h.computeDerived hhost hA) p v (fun _ => hread) fun _ => hwrite

end

end Congruent

end Run

end ObjectAction
