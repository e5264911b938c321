/-
Whom a run blames. Every diagnostic of a run comes from a node of the body that was started or of one that the
population stores: its label is that of the body, its line is the one that the node begins on, and the evaluation of
the node failed while the body was running. Bodies do not fail, so a fault never passes from a body to the one that
called it; and an expression keeps what fails in the population to itself, so a failing invocation is reported where
it stands.

Main statement: `diagnostics_located`.
-/
import ObjectAction.Proofs.Run.Entry

namespace ObjectAction

namespace Population

variable {P : Value → Prop} {p q r : Population}

theorem RunsTo.trans (h₁ : RunsTo P p q) (h₂ : RunsTo P q r) : RunsTo P p r where
  classes := h₂.classes.trans h₁.classes
  functions := h₂.functions.trans h₁.functions
  entities := h₂.entities.trans h₁.entities
  ports := h₂.ports.trans h₁.ports
  events e he := (h₂.events e he).elim (h₁.events e) .inr

/-- A run stores no actions. -/
theorem Stores.of_runsTo {a : Action} (h : q.Stores a) (hruns : RunsTo P p q) : p.Stores a := by
  cases h with
  | function h => exact .function (hruns.functions ▸ h)
  | bridge h => exact .bridge (hruns.entities ▸ h)
  | port h => exact .port (hruns.ports ▸ h)
  | derived hc h => exact .derived (hruns.classes ▸ hc) h
  | operation hc h => exact .operation (hruns.classes ▸ hc) h
  | classOperation hc h => exact .classOperation (hruns.classes ▸ hc) h

end Population

namespace Run

/-- The bodies that run are the one that was started and those that the population stores, and what is reported has
failed. -/
def blame (host : Host) (p : Population) (origin : Origin) : Law where
  value _ := True
  population := Population.RunsTo (fun _ => True) p
  known o := o = origin ∨ p.Stores (.written o.label o.body)
  fails node f s s' := Fails host f s s' node
  plain _ _ := trivial
  nodup _ _ := trivial
  sublist _ _ _ _ := trivial
  empty := trivial
  element _ _ _ _ := trivial
  grow _ _ _ _ _ := trivial
  put _ _ _ _ _ := trivial
  argument _ _ _ _ := trivial
  event _ _ := trivial
  after q _ hq hop := hq.trans (Population.runsTo_after hop q)
  stored _ _ _ _ _ _ := trivial
  instances _ _ _ _ _ := trivial
  action _ _ _ hq h := .inr (h.of_runsTo hq)

/-! ## Where faults end -/

/-- What fails in the population does not get out of the expression that it fails in. -/
theorem eval_not_population {host : Host} {fuel : Nat} {e : Expression} {s s' : RunState} {f : Fault}
    (h : eval host fuel e s = .failed f s') : isPopulationFault f = false := by
  cases fuel with
  | zero => cases h
  | succ fuel =>
    change recover (evalForm host (eval host fuel) (activate host fuel) e) isPopulationFault _ s = _ at h
    unfold recover at h
    cases hform : evalForm host (eval host fuel) (activate host fuel) e s with
    | done v s₁ =>
      rw [hform] at h
      cases h
    | exhausted =>
      rw [hform] at h
      cases h
    | failed g s₁ =>
      rw [hform] at h
      dsimp only at h
      split at h
      · cases h
      · rename_i hother
        cases h
        exact Bool.eq_false_of_not_eq_true hother

/-- A statement that only invokes fails for other reasons. -/
theorem Fails.not_population {host : Host} {f : Fault} {s s' : RunState} {extent : Extent}
    {invocation : Expression} (h : Fails host f s s' (.statement (.invoke extent invocation))) :
    isPopulationFault f = false := by
  obtain ⟨-, fuel, h⟩ := h
  change Run.bind (eval host fuel invocation) _ s = _ at h
  unfold Run.bind at h
  cases heval : eval host fuel invocation s with
  | done v s₁ =>
    rw [heval] at h
    cases h
  | exhausted =>
    rw [heval] at h
    cases h
  | failed g s₁ =>
    rw [heval] at h
    cases h
    exact eval_not_population heval

/-- What fails in the population is recorded at the expression that it fails in. -/
theorem mem_recordEval {host : Host} {fuel : Nat} {o : Origin} {e : Expression} {s s' : RunState}
    {g : PopulationError}
    (h : evalForm host (eval host fuel) (activate host fuel) e s = .failed (.population g) s') :
    .fault o (.expression e) (.population g) s s' ∈ (recordEval host (fuel + 1) o e).moments s := by
  show _ ∈ (Record.reporting o (.expression e) isPopulationFault Value.null
    (Record.evalForm host (recordEval host fuel o) (recordActivate host fuel) e)).moments s
  rw [Record.moments_reporting h rfl]
  exact List.mem_append_right _ List.mem_cons_self

/-- The diagnostic that a moment stands for. -/
def Moment.diagnostic? : Moment → Option Diagnostic
  | .fault origin node f _ _ => some ⟨origin.label, node.line, f.message⟩
  | .state _ | .result _ _ | .begins _ | .pass | .ends _ _ _ => none

end Run

/-- A fault of the journal as it is shown. -/
def Diagnostic.ofFault (x : String × Nat × Fault) : Diagnostic := ⟨x.1, x.2.1, x.2.2.message⟩

theorem Journal.diagnostics_eq (j : Journal) : j.diagnostics = (Journal.faults j).map Diagnostic.ofFault := by
  unfold Journal.diagnostics Journal.faults
  rw [List.map_filterMap]
  congr 1
  funext n
  cases n with
  | fault | log => rfl

theorem Run.diagnostics_moments (ms : List Run.Moment) :
    ms.filterMap Run.Moment.diagnostic? = (ms.filterMap Run.Moment.fault?).map Diagnostic.ofFault := by
  rw [List.map_filterMap]
  congr 1
  funext m
  cases m with
  | state | result | fault | begins | pass | ends => rfl

namespace Entry

open Run

/-- The diagnostics of a run are those of its record, in order. Each is about a node of the body that was started or
of one that the population stores, has the label of this body and the line of the node, and the evaluation of the
node began and failed in an activation of the body. An expression reports what fails in the population itself: where
an invocation fails for the population it is the invocation that is blamed, and no body that is called passes a fault
on to its caller. -/
theorem diagnostics_located (host : Host) (p : Population) {x : Entry} {origin : Origin}
    (horigin : x.origin? = some origin) :
    (∀ r, x.run host p = some r →
      r.journal.diagnostics = (x.moments host p).filterMap Moment.diagnostic? ∧
        ∃ s, Leads (x.state p) (x.moments host p) s ∧ r.journal = s.journal) ∧
    (∀ o node f s s', .fault o node f s s' ∈ x.moments host p →
      (o = origin ∨ p.Stores (.written o.label o.body)) ∧ o.body.Contains node ∧
        s.activation.label = o.label ∧ s'.activation.label = o.label ∧ Fails host f s s' node ∧
        ∀ extent invocation, node = .statement (.invoke extent invocation) → isPopulationFault f = false) ∧
    (∀ fuel o e s g s',
      evalForm host (eval host fuel) (Run.activate host fuel) e s = .failed (.population g) s' →
        .fault o (.expression e) (.population g) s s' ∈ (recordEval host (fuel + 1) o e).moments s) ∧
    ∀ fuel a b s f s', Run.activate host fuel a b s ≠ .failed f s' := by
  have hhost : host.Respects (blame host p origin).population (blame host p origin).value := host.respects_true _
  have hgoverns : (blame host p origin).Governs host plenty := upholds_run hhost (fun _ _ _ _ h => h) plenty
  have hknown : ∀ o ∈ x.origin?, (blame host p origin).known o :=
    fun o ho => .inl (Option.some.inj (ho.symm.trans horigin))
  obtain ⟨hfits, hresult⟩ := upheld hhost hgoverns hknown (.refl p) fun _ _ => trivial
  refine ⟨fun r hr => ?_, fun o node f s s' hfault => ?_, fun fuel o e s g s' hform => ?_, fun fuel a b s => ?_⟩
  · obtain ⟨-, s, hleads, -, -, hjournal⟩ := hresult r hr
    have hjournal : r.journal = s.journal := hjournal (by rw [horigin]; rfl)
    refine ⟨?_, s, hleads, hjournal⟩
    rw [Journal.diagnostics_eq, hjournal, hleads.faults hfits, diagnostics_moments]
    rfl
  · obtain ⟨hbody, hnode, hbegan, hfailed, hfails⟩ := hfits _ hfault
    refine ⟨hbody, hnode, hbegan, hfailed, hfails, ?_⟩
    rintro extent invocation rfl
    exact hfails.not_population
  · exact mem_recordEval hform
  · exact (quiet_activate host fuel a b s).not_failed

/-- A place on that line. -/
def onLine (line : Nat) : Extent := ⟨⟨0, line, 0⟩, ⟨0, line, 0⟩, ""⟩

/-- `LOG::info();` on a line, which lacks the message. -/
def speechless (line : Nat) : Statement := .invoke (onLine line) (.invoke (onLine line) (.bridge "LOG") "info" [])

/-- A body whose second line is `LOG::info();`. -/
def calledBody : Body := ⟨onLine 1, .mk (onLine 1) [speechless 2]⟩

/-- `n = 1 / 0;`, `call();` and `LOG::info();` on three lines. -/
def callingBody : Body :=
  ⟨onLine 1, .mk (onLine 1) [
    .assign (onLine 1) (.var (onLine 1) "n") (.binary (onLine 1) (.integer (onLine 1) 1) .div (.integer (onLine 1) 0)),
    .invoke (onLine 2) (.invoke (onLine 2) .function "call" []),
    speechless 3]⟩

def callingHistory : List Operation :=
  [.defineFunction "call" (.written "called" calledBody), .defineBridge "LOG" "info" (.log .info)]

/-- The missing message is blamed on the body that is called and then on the caller, behind the division. -/
theorem diagnostics_located_callingBody :
    (∃ r, (function "calling" callingBody []).run (.bare .all) (Population.initial.afterAll callingHistory) = some r ∧
      r.journal.faults = [("calling", 1, .divisionByZero), ("called", 2, .population (.missingArgument "message")),
        ("calling", 3, .population (.missingArgument "message"))] ∧
      r.journal.diagnostics = ((function "calling" callingBody []).moments (.bare .all)
        (Population.initial.afterAll callingHistory)).filterMap Moment.diagnostic?) ∧
    ∀ o node f s s', .fault o node f s s' ∈ (function "calling" callingBody []).moments (.bare .all)
        (Population.initial.afterAll callingHistory) →
      o = ⟨"calling", callingBody⟩ ∨ (Population.initial.afterAll callingHistory).Stores (.written o.label o.body) := by
  obtain ⟨hresult, hfaults, -⟩ := diagnostics_located (.bare .all) (Population.initial.afterAll callingHistory)
    (x := function "calling" callingBody []) rfl
  exact ⟨⟨_, rfl, rfl, (hresult _ rfl).1⟩, fun o node f s s' h => (hfaults o node f s s' h).1⟩

end Entry

end ObjectAction
