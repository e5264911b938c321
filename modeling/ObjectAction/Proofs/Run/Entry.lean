/-
Runs from the outside: the ways to start one, the record of what happens in it, and what the laws say of both. The
moments of a run lead from the state that it starts in to the one that its result is taken from.

Main statement: `upheld`.
-/
import ObjectAction.Proofs.Run.Upheld

namespace ObjectAction

/-- The ways to start a run. -/
inductive Entry where
  | function (label : String) (b : Body) (arguments : Arguments)
  | operation (label : String) (b : Body) (arguments : Arguments) (receiver : InstanceRef)
  | derivedAttribute (label : String) (b : Body) (name : String) (receiver : InstanceRef)
  | action (a : Action) (receiver : Option InstanceRef) (arguments : Arguments)

namespace Entry

open Run

def run (host : Host) (p : Population) : Entry → Option RunResult
  | function label b arguments => runFunction host p label b arguments
  | operation label b arguments receiver => runOperation host p label b arguments receiver
  | derivedAttribute label b name receiver => runDerivedAttribute host p label b name receiver
  | action a receiver arguments => runAction host p a receiver arguments

def arguments : Entry → Arguments
  | function _ _ arguments | operation _ _ arguments _ | action _ _ arguments => arguments
  | derivedAttribute _ _ _ _ => []

/-- The body that is started; a log operation has none, and neither has a native one. -/
def origin? : Entry → Option Origin
  | function label b _ | operation label b _ _ | derivedAttribute label b _ _ | action (.written label b) _ _ =>
    some ⟨label, b⟩
  | action (.log _) _ _ | action (.native _) _ _ => none

/-- The activation that a run starts in. An action is invoked from an activation without a body. -/
def activation : Entry → Activation
  | function label _ arguments => .start label none arguments
  | operation label _ arguments receiver => .start label (some receiver) arguments
  | derivedAttribute label _ name receiver => .derive label name receiver
  | action (.written label _) _ _ => .start label none []
  | action (.log _) _ _ | action (.native _) _ _ => .start "<native>" none []

/-- The line on which a fault is reported that the step leaves. -/
def line : Entry → Nat
  | function _ b _ | operation _ b _ _ | derivedAttribute _ b _ _ => b.extent.start.line
  | action _ _ _ => 0

/-- The state that a run starts in. -/
def state (p : Population) (x : Entry) : RunState := ⟨p, .empty, x.activation, #[]⟩

def step (host : Host) : Entry → Run Value
  | function _ b _ | operation _ b _ _ | derivedAttribute _ b _ _ => execBody (exec host plenty) b
  | action a receiver arguments => callAction host (Run.activate host plenty) a receiver arguments

def record (host : Host) : ∀ x : Entry, Record (x.step host)
  | function label b _ | operation label b _ _ | derivedAttribute label b _ _ =>
    Record.execBody (recordExec host plenty ⟨label, b⟩) b
  | action a receiver arguments => Record.callAction host (recordActivate host plenty) a receiver arguments

/-- What happens in a run. -/
def moments (host : Host) (p : Population) (x : Entry) : List Moment :=
  (x.record host).moments (x.state p)

/-- The result of a run is what its step leaves, where faults that are left are reported. -/
theorem run_eq (host : Host) (p : Population) (x : Entry) :
    x.run host p = start p x.activation (settle x.line (x.step host)) := by
  cases x with
  | function | operation | derivedAttribute => rfl
  | action a receiver arguments =>
    cases a with
    | written | log | native => rfl

/-- A body does not fail, and neither does what invokes one. -/
theorem step_not_failed (host : Host) {x : Entry} {o : Origin} (h : x.origin? = some o) (s : RunState)
    (f : Fault) (s' : RunState) : x.step host s ≠ .failed f s' := by
  have hbody : ∀ b, execBody (exec host plenty) b s ≠ .failed f s' :=
    fun b => (restores_execBody (disciplined_exec host plenty) b s).not_failed f s'
  cases x with
  | function | operation | derivedAttribute => exact hbody _
  | action a receiver arguments =>
    cases a with
    | written label b => exact (quiet_activate host plenty _ b s).not_failed f s'
    | log | native => cases h

variable {L : Law} {host : Host} {p : Population} {x : Entry}

theorem upholds_record (hhost : host.Respects L.population L.value) (hL : L.Governs host plenty)
    (hknown : ∀ o ∈ x.origin?, L.known o) (harguments : ∀ y ∈ x.arguments, L.value y.2) :
    L.Upholds x.activation.label L.value (x.record host) := by
  have hbody : ∀ label b, L.known ⟨label, b⟩ →
      L.Upholds label L.value (Record.execBody (recordExec host plenty ⟨label, b⟩) b) :=
    fun label b hknown => upholds_execBody (fun st => hL.exec ⟨label, b⟩ st hknown) fun st hst => .statement hst
  cases x with
  | function label b | operation label b | derivedAttribute label b => exact hbody label b (hknown _ rfl)
  | action a receiver arguments =>
    have hactivate := fun label a b => hL.activate a b label
    cases a with
    | written label b =>
      exact upholds_callAction (hactivate _) hhost (.written label b) (hknown _ rfl) receiver harguments
    | log op => exact upholds_callAction (hactivate _) hhost (.log op) trivial receiver harguments
    | native name => exact upholds_callAction (hactivate _) hhost (.native name) trivial receiver harguments

theorem in_state (hp : L.population p) (harguments : ∀ y ∈ x.arguments, L.value y.2) :
    L.In x.activation.label (x.state p) := by
  refine ⟨⟨hp, nofun, ?_, ?_⟩, rfl⟩
  · cases x with
    | function | operation => exact harguments
    | derivedAttribute => nofun
    | action a =>
      cases a with
      | written | log | native => nofun
  · cases x with
    | function | operation => nofun
    | derivedAttribute =>
      intro cell hcell
      cases hcell
      exact L.plain _ rfl
    | action a =>
      cases a with
      | written | log | native => nofun

/-- What a run does under a law: every moment fits the law, and the moments lead to the state that the run ends in. -/
theorem upheld (hhost : host.Respects L.population L.value) (hL : L.Governs host plenty)
    (hknown : ∀ o ∈ x.origin?, L.known o) (hp : L.population p) (harguments : ∀ y ∈ x.arguments, L.value y.2) :
    (∀ m ∈ x.moments host p, L.Fits m) ∧ ∀ r, x.run host p = some r → L.value r.value ∧
      ∃ s, Leads (x.state p) (x.moments host p) s ∧ L.Holds s ∧ r.population = s.population ∧
        (x.origin?.isSome = true → r.journal = s.journal) := by
  obtain ⟨hfits, hend⟩ := upholds_record hhost hL hknown harguments (x.state p) (in_state hp harguments)
  refine ⟨hfits, fun r hr => ?_⟩
  rw [run_eq] at hr
  unfold start settle recover at hr
  change L.Ends _ _ _ (x.step host ⟨p, .empty, x.activation, #[]⟩) at hend
  cases hstep : x.step host ⟨p, .empty, x.activation, #[]⟩ with
  | done v s =>
    rw [hstep] at hr hend
    cases hr
    obtain ⟨hin, hv, hleads⟩ := hend
    exact ⟨hv, s, hleads, hin.toHolds, rfl, fun _ => rfl⟩
  | failed f s =>
    rw [hstep] at hr hend
    cases hr
    obtain ⟨hin, hleads⟩ := hend
    -- only what is invoked by itself and has no body leaves a fault to settle
    refine ⟨L.plain _ rfl, s, hleads, hin.toHolds, rfl, fun hsome => ?_⟩
    obtain ⟨o, ho⟩ := Option.isSome_iff_exists.mp hsome
    exact absurd hstep (step_not_failed host ho _ f s)
  | exhausted =>
    rw [hstep] at hr
    cases hr

end Entry

end ObjectAction
