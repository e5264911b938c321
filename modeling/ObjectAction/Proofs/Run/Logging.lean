/-
Which lines the log shows has no influence on a run, as long as no log operation misses its message. To follow another
step goes through all forms of expressions and statements, so each layer of the evaluator where the log shows less
follows the one where it shows more, if the layers with one unit of fuel less do.

Main statement: `run_independent_of_log`.
-/
import ObjectAction.Proofs.Run.Congruence
import ObjectAction.Proofs.Run.Parting

namespace ObjectAction

namespace Run

/-! ## All forms -/

theorem follows_setPass (index : Nat) : Follows (setPass index) (setPass index) := by
  refine follows_modify fun s j => ?_
  obtain ⟨p, scopes, ⟨label, receiver, arguments, derived, candidates, loops⟩, journal⟩ := s
  cases loops with
  | nil | cons => rfl

theorem follows_sequential : Sequential fun _ x y => Follows x y where
  pure := follows_pure
  bind := Follows.bind

theorem follows_congruent : Congruent fun _ x y => Follows x y where
  toSequential := follows_sequential
  exhausted := follows_exhausted
  fail _ := follows_fail _
  look hf := follows_look fun s j => hf s { s with journal := j } rfl
  ask := follows_ask
  perform := follows_perform
  install := follows_install
  readVariable := follows_readVariable
  updateArray name _ _ h := follows_updateArray name _ h
  withCandidate hx _ := hx.between _ _
  inBlock := Follows.inBlock
  loop hx _ item refs := (follows_sequential.passes follows_setPass follows_install hx item 0 refs).between _ _

theorem follows_execBody {exec exec' : Statement → Run Signal} (hX : ∀ st, Follows (exec st) (exec' st)) (b : Body) :
    Follows (execBody exec b) (execBody exec' b) := by
  refine .bind (follows_congruent.execBlock hX b.block).inScope fun signal => ?_
  refine .bind (follows_look fun _ _ => rfl) fun cell => ?_
  split
  · exact follows_pure _
  · exact follows_pure _

/-! ## Whole runs -/

section

variable {verbose quiet : Host} (hshows : ∀ severity, quiet.verbosity.shows severity = true →
  verbose.verbosity.shows severity = true) (hnatives : quiet.natives = verbose.natives)

include hshows hnatives

theorem follows_host : HostsRelated (fun _ x y => Follows x y) verbose quiet :=
  ⟨follows_performLog hshows, hnatives⟩

theorem follows_run (fuel : Nat) :
    (∀ e, Follows (eval verbose fuel e) (eval quiet fuel e)) ∧
    (∀ st, Follows (exec verbose fuel st) (exec quiet fuel st)) ∧
    ∀ a b, Follows (activate verbose fuel a b) (activate quiet fuel a b) := by
  have hhost := follows_host hshows hnatives
  induction fuel with
  | zero => exact ⟨fun _ => follows_exhausted, fun _ => follows_exhausted, fun _ _ => follows_exhausted⟩
  | succ fuel ih =>
    obtain ⟨hE, hX, hA⟩ := ih
    have hread : Follows (look computed) (look computed) := follows_look fun _ _ => rfl
    have hwrite : ∀ v, Follows (modify (·.withResult v)) (modify (·.withResult v)) :=
      fun v => follows_modify fun _ _ => rfl
    refine ⟨fun e => ?_, fun st => ?_, fun a b => ?_⟩
    · -- a message that is missing is a fault of the population, which is reported where it arises
      have hform := follows_congruent.evalForm_all hhost hA hE hread e
      refine hform.reporting (fun f hf => ?_) _ _
      cases f with
      | population => rfl
      | _ => cases hf
    · have hform := follows_congruent.execForm_all fuel hE hX hhost hA hread hwrite st
      exact hform.reporting (fun _ hf => hf) _ _
    · exact (follows_execBody hX b).within a

theorem follows_step (x : Entry) : Follows (x.step verbose) (x.step quiet) := by
  obtain ⟨-, hX, hA⟩ := follows_run hshows hnatives plenty
  cases x with
  | function | operation | derivedAttribute => exact follows_execBody hX _
  | action a receiver arguments =>
    exact follows_congruent.callAction (follows_host hshows hnatives) hA a receiver arguments

end

end Run

namespace Entry

open Run

/-- The step of a run does not fail for its scopes. -/
theorem recoverable_step {host : Host} {x : Entry} {s s' : RunState} {f : Fault} (h : x.step host s = .failed f s') :
    f.isRecoverable = true := by
  have hquiet : ∀ {y : Run Value}, Quiet Fault.isRecoverable y y → y s = .failed f s' → f.isRecoverable = true := by
    intro y hy hfailed
    have hleaves := (hy s).leaves
    rw [hfailed] at hleaves
    exact hleaves.1
  cases horigin : x.origin? with
  | some o => exact absurd h (step_not_failed host horigin s f s')
  | none =>
    cases x with
    | function | operation | derivedAttribute => cases horigin
    | action a receiver arguments =>
      cases a with
      | written => cases horigin
      | log op => exact hquiet (quiet_performLog _ op arguments) h
      | native name => exact hquiet (quiet_performNative _ receiver arguments) h

/-- What the log shows does not matter. If a run ends where the log shows more, and no log operation missed its
message, then the run ends where the log shows less, with the same value, the same diagnostics in the same order and
the same population. -/
theorem run_independent_of_log {verbose quiet : Host} (hshows : ∀ severity,
    quiet.verbosity.shows severity = true → verbose.verbosity.shows severity = true)
    (hnatives : quiet.natives = verbose.natives) {p : Population} {x : Entry} {r : RunResult}
    (hrun : x.run verbose p = some r)
    (hmissing : ∀ fault ∈ r.journal.faults, fault.2.2 ≠ .population (.missingArgument "message")) :
    ∃ r', x.run quiet p = some r' ∧ r'.value = r.value ∧ r'.journal.diagnostics = r.journal.diagnostics ∧
      r'.population = r.population := by
  have hagrees := (follows_step hshows hnatives x).agrees (x.state p) (x.state p) ⟨rfl, rfl, rfl, rfl⟩
  rw [run_eq] at hrun ⊢
  unfold start settle recover at hrun ⊢
  unfold state at hagrees
  cases hstep : x.step verbose ⟨p, .empty, x.activation, #[]⟩ with
  | exhausted =>
    rw [hstep] at hrun
    cases hrun
  | failed f s =>
    -- the fault is reported, and by both runs if they have not parted
    have hrecoverable := recoverable_step hstep
    have hnoted : ∀ s₁ : RunState, (noted x.line f s₁).journal.faults =
        s₁.journal.faults ++ [(s₁.activation.label, x.line, f)] := fun s₁ => Journal.faults_push_fault _ _ _ _
    rw [hstep] at hrun hagrees
    cases hrun
    change ∀ fault ∈ (noted x.line f s).journal.faults, _ at hmissing
    rw [hnoted, List.forall_mem_append, List.forall_mem_singleton] at hmissing
    generalize x.step quiet ⟨p, .empty, x.activation, #[]⟩ = o at hagrees ⊢
    cases hagrees with
    | parted hparted =>
      rcases hparted with (hmessage | hscope) | ⟨fault, hfault, hmessage⟩
      · exact absurd hmessage hmissing.2
      · rw [hrecoverable] at hscope
        cases hscope
      · exact absurd hmessage (hmissing.1 fault hfault)
    | @failed _ _ s' hs =>
      refine ⟨_, rfl, rfl, ?_, hs.population⟩
      show (noted x.line f s').journal.diagnostics = (noted x.line f s).journal.diagnostics
      rw [Journal.diagnostics_eq, Journal.diagnostics_eq, hnoted, hnoted, hs.faults, hs.activation]
  | done v s =>
    rw [hstep] at hrun hagrees
    cases hrun
    generalize x.step quiet ⟨p, .empty, x.activation, #[]⟩ = o at hagrees ⊢
    cases hagrees with
    | parted hparted =>
      obtain ⟨fault, hfault, hmessage⟩ := hparted
      exact absurd hmessage (hmissing fault hfault)
    | done _ hs =>
      refine ⟨_, rfl, rfl, ?_, hs.population⟩
      rw [Journal.diagnostics_eq, Journal.diagnostics_eq, hs.faults]

/-- `LOG::LogInfo(message: "half way");`, `n = 1 / 0;` and `return 7;` on three lines. -/
def tellingBody : Body :=
  ⟨onLine 1, .mk (onLine 1) [
    .invoke (onLine 1) (.invoke (onLine 1) (.bridge "LOG") "LogInfo"
      [.mk (onLine 1) "message" (.string (onLine 1) "half way")]),
    .assign (onLine 2) (.var (onLine 2) "n") (.binary (onLine 2) (.integer (onLine 2) 1) .div (.integer (onLine 2) 0)),
    .returnValue (onLine 3) (some (.integer (onLine 3) 7))]⟩

/-- Only the line of the log is gone where the log is off. -/
theorem run_independent_of_log_tellingBody :
    (∀ severity, (Host.bare .off).verbosity.shows severity = true → (Host.bare .all).verbosity.shows severity = true) ∧
    ∃ r, (function "telling" tellingBody []).run (.bare .all) .initial = some r ∧
      r.journal = #[.log .info "half way", .fault "telling" 2 .divisionByZero] ∧
      (∀ fault ∈ r.journal.faults, fault.2.2 ≠ .population (.missingArgument "message")) ∧
      ∃ r', (function "telling" tellingBody []).run (.bare .off) .initial = some r' ∧ r'.value = r.value ∧
        r'.journal.diagnostics = r.journal.diagnostics ∧ r'.population = r.population := by
  have hshows : ∀ severity, (Host.bare .off).verbosity.shows severity = true →
      (Host.bare .all).verbosity.shows severity = true := nofun
  have hnatives : (Host.bare .off).natives = (Host.bare .all).natives := rfl
  have hmissing : ∀ fault ∈ Journal.faults #[.log .info "half way", .fault "telling" 2 .divisionByZero],
      fault.2.2 ≠ .population (.missingArgument "message") := by
    simp [Journal.faults]
  exact ⟨hshows, _, rfl, rfl, hmissing, run_independent_of_log hshows hnatives rfl hmissing⟩

end Entry

end ObjectAction
