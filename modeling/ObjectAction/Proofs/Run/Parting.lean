/-
Two runs that differ in which lines the log shows. A log operation looks at its arguments only if its line is shown,
so it can miss its message in one run and pass in the other. Up to there both runs go step by step through the same
states, but for the lines of the log.

`Follows x y` says this of a step `x` where the log shows more and of the same step `y` where it shows less: from
states that agree they end in states that agree, unless the runs part. They part where a message is missing, and
whatever the first run does after that, the fault stays in its journal.
-/
import ObjectAction.Proofs.Run.Blame

namespace ObjectAction

/-! ## States and outcomes that agree -/

/-- The fault of a log operation that has no message to write. -/
def Fault.missingMessage : Fault := .population (.missingArgument "message")

/-- The runs part with this fault. One of the scopes never arises, and counts so that no fault can hide another. -/
def Fault.Parts (f : Fault) : Prop := f = .missingMessage ∨ f.isRecoverable = false

/-- The journal tells that a message was missing. -/
def RunState.Parted (s : RunState) : Prop := ∃ x ∈ s.journal.faults, x.2.2 = .missingMessage

/-- The same state, but for the lines of the log. -/
structure RunState.Agrees (s s' : RunState) : Prop where
  population : s'.population = s.population
  scopes : s'.scopes = s.scopes
  activation : s'.activation = s.activation
  faults : s'.journal.faults = s.journal.faults

/-- The runs have parted, or the step did not end. -/
def Outcome.Parted {α : Type} : Outcome α → Prop
  | .done _ s => s.Parted
  | .failed f s => f.Parts ∨ s.Parted
  | .exhausted => True

inductive Outcome.Agrees {α : Type} : Outcome α → Outcome α → Prop
  | parted {o o' : Outcome α} (h : o.Parted) : Agrees o o'
  | done (a : α) {s s' : RunState} (h : s.Agrees s') : Agrees (.done a s) (.done a s')
  | failed (f : Fault) {s s' : RunState} (h : s.Agrees s') : Agrees (.failed f s) (.failed f s')

/-- The outcome with another journal in the state that is left. -/
def Outcome.withJournal {α : Type} (j : Journal) : Outcome α → Outcome α
  | .done a s => .done a { s with journal := j }
  | .failed f s => .failed f { s with journal := j }
  | .exhausted => .exhausted

@[simp] theorem Journal.faults_push_log (j : Journal) (severity : Severity) (text : String) :
    Journal.faults (j.push (.log severity text)) = j.faults := by
  simp [Journal.faults]

@[simp] theorem Journal.faults_push_fault (j : Journal) (label : String) (line : Nat) (f : Fault) :
    Journal.faults (j.push (.fault label line f)) = j.faults ++ [(label, line, f)] := by
  simp [Journal.faults]

namespace Run

variable {α β : Type}

/-! ## Steps that follow one another -/

structure Follows (x y : Run α) : Prop where
  parted : ∀ s, s.Parted → (x s).Parted
  agrees : ∀ s s', s.Agrees s' → (x s).Agrees (y s')

/-- Goes on after a step, whether it is done or has failed. -/
def andThen (x : Run α) (done : α → Run β) (failed : Fault → Run β) : Run β := fun s =>
  match x s with
  | .done a s' => done a s'
  | .failed f s' => failed f s'
  | .exhausted => .exhausted

section

variable {x y : Run α} {done done' : α → Run β} {failed failed' : Fault → Run β}

theorem parted_andThen {s : RunState} (hx : (x s).Parted) (hdone : ∀ a s, s.Parted → (done a s).Parted)
    (hfailed : ∀ f s, f.Parts ∨ s.Parted → (failed f s).Parted) : (x.andThen done failed s).Parted := by
  unfold andThen
  cases hxs : x s with
  | done a s₁ =>
    rw [hxs] at hx
    exact hdone a s₁ hx
  | failed f s₁ =>
    rw [hxs] at hx
    exact hfailed f s₁ hx
  | exhausted => trivial

/-- What comes after a fault with which the runs part has to keep it. -/
theorem Follows.andThen (hx : Follows x y) (hdone : ∀ a, Follows (done a) (done' a))
    (hfailed : ∀ f, Follows (failed f) (failed' f)) (hparts : ∀ f s, f.Parts → (failed f s).Parted) :
    Follows (x.andThen done failed) (y.andThen done' failed') := by
  have hparted : ∀ s, (x s).Parted → (x.andThen done failed s).Parted := by
    intro s h
    refine parted_andThen h (fun a s₁ => (hdone a).parted s₁) fun f s₁ hf => ?_
    rcases hf with hf | hf
    · exact hparts f s₁ hf
    · exact (hfailed f).parted s₁ hf
  constructor
  · exact fun s hs => hparted s (hx.parted s hs)
  · intro s s' hs
    have hagrees := hx.agrees s s' hs
    cases hxs : x s with
    | exhausted =>
      refine .parted (hparted s ?_)
      rw [hxs]
      trivial
    | done a s₁ =>
      rw [hxs] at hagrees
      generalize hys : y s' = o at hagrees
      cases hagrees with
      | parted h => exact .parted (hparted s (hxs ▸ h))
      | done _ hs₁ =>
        unfold Run.andThen
        rw [hxs, hys]
        exact (hdone a).agrees _ _ hs₁
    | failed f s₁ =>
      rw [hxs] at hagrees
      generalize hys : y s' = o at hagrees
      cases hagrees with
      | parted h => exact .parted (hparted s (hxs ▸ h))
      | failed _ hs₁ =>
        unfold Run.andThen
        rw [hxs, hys]
        exact (hfailed f).agrees _ _ hs₁

end

theorem follows_exhausted : Follows (exhausted : Run α) exhausted := ⟨fun _ _ => trivial, fun _ _ _ => .parted trivial⟩

/-! ## Steps that do not look at the journal -/

/-- The step neither looks at the journal nor changes it. -/
def Blind (x : Run α) : Prop := ∀ s j, x { s with journal := j } = (x s).withJournal j

theorem Blind.follows {x : Run α} (h : Blind x) : Follows x x := by
  constructor
  · intro s hs
    have hkept : x s = (x s).withJournal s.journal := h s s.journal
    rw [hkept]
    cases x s with
    | done a s₁ => exact hs
    | failed f s₁ => exact .inr hs
    | exhausted => trivial
  · intro s s' hs
    obtain ⟨p', t', a', j'⟩ := s'
    obtain ⟨rfl, rfl, rfl, hfaults⟩ := hs
    -- both runs leave their journal as it is, and the rest is the same
    have hkept : x s = (x s).withJournal s.journal := h s s.journal
    have hother : x { s with journal := j' } = (x s).withJournal j' := h s j'
    rw [hkept, hother]
    cases x s with
    | done a s₁ => exact .done a ⟨rfl, rfl, rfl, hfaults⟩
    | failed f s₁ => exact .failed f ⟨rfl, rfl, rfl, hfaults⟩
    | exhausted => exact .parted trivial

theorem follows_pure (a : α) : Follows (Pure.pure a : Run α) (Pure.pure a) :=
  Blind.follows fun _ _ => rfl

theorem follows_fail (f : Fault) : Follows (fail f : Run α) (fail f) := Blind.follows fun _ _ => rfl

theorem follows_look {f : RunState → α} (h : ∀ s j, f { s with journal := j } = f s) :
    Follows (look f) (look f) := by
  refine Blind.follows fun s j => ?_
  unfold look
  rw [h]
  rfl

theorem follows_modify {f : RunState → RunState} (h : ∀ s j, f { s with journal := j } = { f s with journal := j }) :
    Follows (modify f) (modify f) := by
  refine Blind.follows fun s j => ?_
  unfold modify
  rw [h]
  rfl

theorem follows_ofExcept (r : Except Fault α) : Follows (ofExcept r) (ofExcept r) := by
  cases r with
  | ok a => exact follows_pure a
  | error f => exact follows_fail f

theorem follows_ask (f : Population → Except PopulationError α) : Follows (ask f) (ask f) := by
  refine Blind.follows fun s j => ?_
  unfold ask
  dsimp only
  cases f s.population with
  | ok | error => rfl

theorem follows_perform (f : Population → Except PopulationError (α × Population)) :
    Follows (perform f) (perform f) := by
  refine Blind.follows fun s j => ?_
  unfold perform
  dsimp only
  cases f s.population with
  | ok | error => rfl

theorem follows_changeScopes (f : Scopes → Except ScopeError (α × Scopes)) :
    Follows (changeScopes f) (changeScopes f) := by
  refine Blind.follows fun s j => ?_
  unfold changeScopes
  dsimp only
  cases f s.scopes with
  | ok | error => rfl

theorem follows_install (name : String) (v : Value) : Follows (install name v) (install name v) :=
  follows_changeScopes _

/-! ## Sequences, faults and the log -/

theorem bind_eq_andThen (x : Run α) (f : α → Run β) : x >>= f = x.andThen f fail := by
  funext s
  show Run.bind x f s = _
  unfold Run.bind andThen
  cases x s with
  | done | failed | exhausted => rfl

theorem Follows.bind {x y : Run α} {f g : α → Run β} (hx : Follows x y) (hf : ∀ a, Follows (f a) (g a)) :
    Follows (x >>= f) (y >>= g) := by
  rw [bind_eq_andThen, bind_eq_andThen]
  exact hx.andThen hf follows_fail fun f s hparts => .inl hparts

/-- A fault that is reported stays in the journal. -/
theorem follows_report (line : Nat) (f : Fault) : Follows (report line f) (report line f) := by
  refine .bind (follows_look fun _ _ => rfl) fun label => ⟨?_, ?_⟩
  · rintro s ⟨x, hx, hmissing⟩
    refine ⟨x, ?_, hmissing⟩
    rw [Journal.faults_push_fault]
    exact List.mem_append_left _ hx
  · intro s s' hs
    refine .done () ⟨hs.population, hs.scopes, hs.activation, ?_⟩
    show Journal.faults (s'.journal.push _) = Journal.faults (s.journal.push _)
    rw [Journal.faults_push_fault, Journal.faults_push_fault, hs.faults]

theorem parted_report (line : Nat) (s : RunState) (a : α) :
    ((do report line .missingMessage; return a : Run α) s).Parted := by
  refine ⟨(s.activation.label, line, .missingMessage), ?_, rfl⟩
  show _ ∈ Journal.faults (s.journal.push _)
  rw [Journal.faults_push_fault]
  exact List.mem_append_right _ (List.mem_singleton_self _)

theorem recover_eq_andThen (x : Run α) (p : Fault → Bool) (rest : Fault → Run α) :
    recover x p rest = x.andThen Pure.pure fun f => if p f then rest f else fail f := by
  funext s
  unfold recover andThen
  cases x s with
  | done | exhausted => rfl
  | failed f s₁ =>
    dsimp only
    split <;> rfl

/-- Faults that are reported can be told from the journal, and no fault of the scopes is. -/
theorem Follows.reporting {x y : Run α} (hx : Follows x y) {p : Fault → Bool}
    (hp : ∀ f, p f = true → f.isRecoverable = true) (line : Nat) (a : α) :
    Follows (recover x p fun f => do report line f; return a) (recover y p fun f => do report line f; return a) := by
  rw [recover_eq_andThen, recover_eq_andThen]
  refine hx.andThen follows_pure (fun f => ?_) fun f s hparts => ?_
  · split
    · exact .bind (follows_report line f) fun _ => follows_pure a
    · exact follows_fail f
  · by_cases hpf : p f = true
    · rw [if_pos hpf]
      rcases hparts with rfl | hscope
      · exact parted_report line s a
      · rw [hp f hpf] at hscope
        cases hscope
    · rw [if_neg hpf]
      exact .inl hparts

/-! ## Steps inside something that is left again -/

theorem between_eq_andThen (enter leave : Activation → Activation) (x : Run α) :
    between enter leave x = (do
      Run.modify fun s => { s with activation := enter s.activation }
      x.andThen (fun a => do Run.modify fun s => { s with activation := leave s.activation }; return a)
        fun f => do Run.modify fun s => { s with activation := leave s.activation }; fail f) := by
  funext s
  show between enter leave x s = x.andThen _ _ { s with activation := enter s.activation }
  unfold between andThen
  cases x { s with activation := enter s.activation } with
  | done | failed | exhausted => rfl

/-- Leaves the newest scope after a fault, which stays the one that is left. -/
def leaveScopeAfter (f : Fault) : Run α := fun s =>
  match s.scopes.leaveScope with
  | .ok (_, t) => .failed f { s with scopes := t }
  | .error _ => .failed f s

theorem inScope_eq_andThen (x : Run α) : inScope x = (do
    Run.modify fun s => { s with scopes := s.scopes.enterScope }
    x.andThen (fun a => do let _ ← changeScopes Scopes.leaveScope; return a) leaveScopeAfter) := by
  funext s
  show inScope x s = x.andThen _ _ { s with scopes := s.scopes.enterScope }
  unfold inScope andThen
  cases x { s with scopes := s.scopes.enterScope } with
  | done a s₁ =>
    show _ = Run.bind (changeScopes Scopes.leaveScope) _ s₁
    unfold Run.bind changeScopes
    dsimp only
    cases s₁.scopes.leaveScope with
    | ok | error => rfl
  | failed | exhausted => rfl

theorem inBlock_eq_andThen (x : Run α) : inBlock x = (do
    changeScopes fun t => t.enterBlock.map ((), ·)
    x.andThen (fun a => do let _ ← changeScopes Scopes.leaveBlock; return a) fun f => do
      let _ ← changeScopes Scopes.leaveBlock
      fail f) := by
  funext s
  cases henter : s.scopes.enterBlock with
  | error e =>
    have hfailed : changeScopes (fun t => t.enterBlock.map ((), ·)) s = .failed (.scope e) s := by
      simp only [changeScopes, henter, Except.map]
    rw [bind_failed hfailed]
    simp only [inBlock, henter]
  | ok t =>
    have hdone : changeScopes (fun t => t.enterBlock.map ((), ·)) s = .done () { s with scopes := t } := by
      simp only [changeScopes, henter, Except.map]
    rw [bind_done hdone]
    simp only [inBlock, henter, andThen]
    cases x { s with scopes := t } with
    | exhausted => rfl
    | done _ s₁ | failed _ s₁ =>
      show _ = Run.bind (changeScopes Scopes.leaveBlock) _ s₁
      unfold Run.bind changeScopes
      dsimp only
      cases s₁.scopes.leaveBlock with
      | ok | error => rfl

section

variable {x y : Run α} (hx : Follows x y)

include hx

theorem Follows.between (enter leave : Activation → Activation) :
    Follows (between enter leave x) (between enter leave y) := by
  rw [between_eq_andThen, between_eq_andThen]
  refine .bind (follows_modify fun _ _ => rfl) fun _ => ?_
  refine hx.andThen (fun a => ?_) (fun f => ?_) fun f s hparts => ?_
  · exact .bind (follows_modify fun _ _ => rfl) fun _ => follows_pure a
  · exact .bind (follows_modify fun _ _ => rfl) fun _ => follows_fail f
  · exact .inl hparts

/-- Both runs go back to the same activation. -/
theorem Follows.within (a : Activation) : Follows (within a x) (within a y) := by
  constructor
  · exact fun s => (hx.between (fun _ => a) fun _ => s.activation).parted s
  · intro s s' hs
    unfold Run.within
    rw [hs.activation]
    exact (hx.between (fun _ => a) fun _ => s.activation).agrees s s' hs

theorem Follows.inScope : Follows (inScope x) (inScope y) := by
  rw [inScope_eq_andThen, inScope_eq_andThen]
  refine .bind (follows_modify fun _ _ => rfl) fun _ => ?_
  refine hx.andThen (fun a => ?_) (fun f => Blind.follows fun s j => ?_) fun f s hparts => ?_
  · exact .bind (follows_changeScopes _) fun _ => follows_pure a
  · unfold leaveScopeAfter
    dsimp only
    cases s.scopes.leaveScope with
    | ok | error => rfl
  · unfold leaveScopeAfter
    cases s.scopes.leaveScope with
    | ok | error => exact .inl hparts

theorem Follows.inBlock : Follows (inBlock x) (inBlock y) := by
  rw [inBlock_eq_andThen, inBlock_eq_andThen]
  refine .bind (follows_changeScopes _) fun _ => ?_
  refine hx.andThen (fun a => ?_) (fun f => ?_) fun f s hparts => ?_
  · exact .bind (follows_changeScopes _) fun _ => follows_pure a
  · exact .bind (follows_changeScopes _) fun _ => follows_fail f
  · -- a fault of the scopes would take the place of this one, and the runs part with both
    show (Run.bind (changeScopes Scopes.leaveBlock) _ s).Parted
    unfold Run.bind changeScopes
    dsimp only
    cases s.scopes.leaveBlock with
    | ok => exact .inl hparts
    | error => exact .inl (.inr rfl)

end

/-! ## Variables -/

theorem follows_readVariable (name : String) : Follows (readVariable name) (readVariable name) :=
  .bind (follows_look fun _ _ => rfl) fun _ => follows_ask _

theorem follows_updateArray (name : String) (g : List Value → Except Fault (List Value)) (h : List Value → α) :
    Follows (updateArray name g h) (updateArray name g h) := by
  have hwrite : ∀ slot items, Follows (writeArray slot items) (writeArray slot items) :=
    fun slot items => follows_modify fun _ _ => rfl
  have hslot : Follows (arraySlot name) (arraySlot name) := by
    refine .bind (follows_changeScopes _) fun slot => .bind (follows_look fun _ _ => rfl) fun v => ?_
    exact .bind (follows_ofExcept _) fun items => .bind (hwrite slot items) fun _ => follows_pure _
  refine hslot.bind fun (slot, items) => .bind (follows_ofExcept _) fun items' => ?_
  exact .bind (hwrite slot items') fun _ => follows_pure _

/-! ## Log operations -/

/-- A log operation whose line is shown needs its message. Otherwise it can only add a line to the log. -/
theorem performLog_cases (verbosity : Verbosity) (op : LogOperation) (arguments : Arguments) :
    (verbosity.shows op.severity = true ∧ Table.value? arguments "message" = none ∧
      ∀ s, performLog verbosity op arguments s = .failed .missingMessage s) ∨
    ((verbosity.shows op.severity = true → Table.value? arguments "message" ≠ none) ∧
      ∀ s, ∃ j : Journal, performLog verbosity op arguments s = .done .null { s with journal := j } ∧
        j.faults = s.journal.faults) := by
  have hask : ∀ {r : Except PopulationError (Option String)}, op.perform verbosity arguments = r →
      ask (fun _ => op.perform verbosity arguments) = ask fun _ => r := by
    rintro _ rfl
    rfl
  cases hshown : verbosity.shows op.severity with
  | false =>
    have hnone : op.perform verbosity arguments = .ok none := by simp [LogOperation.perform, hshown]
    refine .inr ⟨nofun, fun s => ⟨s.journal, ?_, rfl⟩⟩
    unfold performLog
    rw [hask hnone]
    rfl
  | true =>
    cases hmessage : Table.value? arguments "message" with
    | none =>
      have herror : op.perform verbosity arguments = .error (.missingArgument "message") := by
        simp [LogOperation.perform, hshown, LogOperation.line, hmessage, Except.map]
      refine .inl ⟨rfl, rfl, fun s => ?_⟩
      unfold performLog
      rw [hask herror]
      rfl
    | some message =>
      obtain ⟨text, htext⟩ : ∃ text, op.perform verbosity arguments = .ok (some text) :=
        ⟨_, by rw [LogOperation.perform, hshown, LogOperation.line, hmessage]; rfl⟩
      refine .inr ⟨fun _ => nofun, fun s => ⟨_, ?_, Journal.faults_push_log s.journal op.severity text⟩⟩
      unfold performLog
      rw [hask htext]
      rfl

theorem follows_performLog {verbose quiet : Verbosity}
    (hshows : ∀ severity, quiet.shows severity = true → verbose.shows severity = true) (op : LogOperation)
    (arguments : Arguments) : Follows (performLog verbose op arguments) (performLog quiet op arguments) := by
  rcases performLog_cases verbose op arguments with ⟨-, -, hfailed⟩ | ⟨hmessage, hdone⟩
  · -- the message is missing where it is looked for
    constructor
    · intro s _
      rw [hfailed]
      exact .inl (.inl rfl)
    · intro s s' _
      rw [hfailed]
      exact .parted (.inl (.inl rfl))
  · constructor
    · intro s hs
      obtain ⟨j, hdone, hfaults⟩ := hdone s
      rw [hdone]
      unfold RunState.Parted at hs
      rw [← hfaults] at hs
      exact hs
    · intro s s' hs
      obtain ⟨j, hdone, hfaults⟩ := hdone s
      rcases performLog_cases quiet op arguments with ⟨hshown, hnone, -⟩ | ⟨-, hdone'⟩
      · exact absurd hnone (hmessage (hshows _ hshown))
      · obtain ⟨j', hdone', hfaults'⟩ := hdone' s'
        rw [hdone, hdone']
        refine .done _ ⟨hs.population, hs.scopes, hs.activation, ?_⟩
        rw [hfaults, hfaults', hs.faults]

end Run

end ObjectAction
