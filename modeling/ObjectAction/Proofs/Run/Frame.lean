/-
Steps that see the newest scope only. Neither the scopes below it nor what the journal holds already make a difference:
both pass through such a step as they are (`Framed`). What runs in a scope of its own does not see any variable around
it (`Detached`).
-/
import ObjectAction.Proofs.Run.Parting

namespace ObjectAction

/-! ## States and outcomes -/

namespace RunState

/-- The state with other variables, and with earlier notices in its journal. -/
def moved (s : RunState) (t : Scopes) (earlier : Journal) : RunState :=
  { s with scopes := t, journal := earlier ++ s.journal }

/-- The state with more scopes below its own, and with earlier notices in its journal. -/
def above (s : RunState) (outer : List Scope) (earlier : Journal) : RunState :=
  s.moved ⟨s.scopes.stack ++ outer⟩ earlier

/-- There is no scope but the newest one. -/
def Alone (s : RunState) : Prop := ∃ scope, s.scopes.stack = [scope]

theorem moved_moved (s : RunState) (t t' : Scopes) (earlier : Journal) :
    (s.moved t #[]).moved t' earlier = s.moved t' earlier := by
  unfold moved
  simp

theorem moved_self (s : RunState) : s.moved s.scopes #[] = s := by
  unfold moved
  simp

end RunState

namespace Outcome

variable {α : Type}

/-- The outcome with another state left. -/
def mapState (g : RunState → RunState) : Outcome α → Outcome α
  | done a s => done a (g s)
  | failed f s => failed f (g s)
  | exhausted => exhausted

/-- What a step gives, whatever state it leaves: nothing if its fuel does not suffice. -/
def result : Outcome α → Option (Except Fault α)
  | done a _ => some (.ok a)
  | failed f _ => some (.error f)
  | exhausted => none

@[simp] theorem result_mapState (g : RunState → RunState) (o : Outcome α) : (o.mapState g).result = o.result := by
  cases o with
  | done | failed | exhausted => rfl

theorem mapState_mapState (g h : RunState → RunState) (o : Outcome α) :
    (o.mapState g).mapState h = o.mapState fun s => h (g s) := by
  cases o with
  | done | failed | exhausted => rfl

theorem leaves_mapState {F : Fault → Bool} {P : RunState → Prop} {g : RunState → RunState} {o : Outcome α}
    (ho : o.Leaves F fun s => P (g s)) : (o.mapState g).Leaves F P := by
  cases o with
  | done | failed => exact ho
  | exhausted => trivial

theorem mapState_congr {F : Fault → Bool} {P : RunState → Prop} {g h : RunState → RunState} {o : Outcome α}
    (ho : o.Leaves F P) (hgh : ∀ s, P s → g s = h s) : o.mapState g = o.mapState h := by
  cases o with
  | done a s => exact congrArg (done a) (hgh s ho)
  | failed f s => exact congrArg (failed f) (hgh s ho.2)
  | exhausted => rfl

end Outcome

namespace Run

variable {α β : Type}

/-- Any fault may be left. -/
def anyFault (_ : Fault) : Bool := true

/-- The step neither looks at the variables nor changes them. -/
def Detached (x : Run α) : Prop := ∀ s t earlier, x (s.moved t earlier) = (x s).mapState (·.moved t earlier)

/-- The step looks at the newest scope only and leaves the others as they are. -/
structure Framed (x : Run α) : Prop where
  alone : ∀ s, s.Alone → (x s).Leaves anyFault RunState.Alone
  above : ∀ s outer earlier, s.Alone → x (s.above outer earlier) = (x s).mapState (·.above outer earlier)

/-! ## Steps that do not look at the variables -/

theorem Detached.scopes {x : Run α} (h : Detached x) (s : RunState) :
    (x s).Leaves anyFault fun s' => s'.scopes = s.scopes := by
  have hself := h s s.scopes #[]
  rw [RunState.moved_self] at hself
  rw [hself]
  cases x s with
  | done a s' => rfl
  | failed f s' => exact ⟨rfl, rfl⟩
  | exhausted => trivial

theorem Detached.framed {x : Run α} (h : Detached x) : Framed x := by
  constructor
  · rintro s ⟨scope, hscope⟩
    exact (h.scopes s).mono fun s' hs' => ⟨scope, by rw [hs', hscope]⟩
  · intro s outer earlier _
    refine (h s _ earlier).trans (Outcome.mapState_congr (h.scopes s) fun s' hs' => ?_)
    unfold RunState.above
    rw [hs']

theorem detached_pure (a : α) : Detached (Pure.pure a : Run α) := fun _ _ _ => rfl

theorem detached_exhausted : Detached (exhausted : Run α) := fun _ _ _ => rfl

theorem detached_fail (f : Fault) : Detached (fail f : Run α) := fun _ _ _ => rfl

theorem detached_look {f : RunState → α} (h : ∀ s t earlier, f (s.moved t earlier) = f s) : Detached (look f) := by
  intro s t earlier
  unfold look
  rw [h]
  rfl

theorem detached_modify {f : RunState → RunState} (h : ∀ s t earlier, f (s.moved t earlier) = (f s).moved t earlier) :
    Detached (modify f) := by
  intro s t earlier
  unfold modify
  rw [h]
  rfl

theorem detached_ofExcept (r : Except Fault α) : Detached (ofExcept r) := by
  cases r with
  | ok a => exact detached_pure a
  | error f => exact detached_fail f

theorem detached_ask (f : Population → Except PopulationError α) : Detached (ask f) := by
  intro s t earlier
  simp only [ask, RunState.moved]
  cases f s.population with
  | ok | error => rfl

theorem detached_perform (f : Population → Except PopulationError (α × Population)) : Detached (perform f) := by
  intro s t earlier
  simp only [perform, RunState.moved]
  cases f s.population with
  | ok | error => rfl

/-- A notice comes behind all earlier ones. -/
theorem detached_note (n : Notice) : Detached (note n) := by
  refine detached_modify fun s t earlier => ?_
  unfold RunState.moved
  simp

/-! ## Sequences -/

theorem Detached.andThen {x : Run α} {done : α → Run β} {failed : Fault → Run β} (hx : Detached x)
    (hdone : ∀ a, Detached (done a)) (hfailed : ∀ f, Detached (failed f)) : Detached (x.andThen done failed) := by
  intro s t earlier
  unfold Run.andThen
  rw [hx]
  cases x s with
  | done a s' => exact hdone a s' t earlier
  | failed f s' => exact hfailed f s' t earlier
  | exhausted => rfl

theorem Framed.andThen {x : Run α} {done : α → Run β} {failed : Fault → Run β} (hx : Framed x)
    (hdone : ∀ a, Framed (done a)) (hfailed : ∀ f, Framed (failed f)) : Framed (x.andThen done failed) := by
  constructor
  · intro s hs
    have halone := hx.alone s hs
    unfold Run.andThen
    cases hxs : x s with
    | done a s' =>
      rw [hxs] at halone
      exact (hdone a).alone s' halone
    | failed f s' =>
      rw [hxs] at halone
      exact (hfailed f).alone s' halone.2
    | exhausted => trivial
  · intro s outer earlier hs
    have halone := hx.alone s hs
    unfold Run.andThen
    rw [hx.above s outer earlier hs]
    cases hxs : x s with
    | done a s' =>
      rw [hxs] at halone
      exact (hdone a).above s' outer earlier halone
    | failed f s' =>
      rw [hxs] at halone
      exact (hfailed f).above s' outer earlier halone.2
    | exhausted => rfl

theorem Detached.bind {x : Run α} {f : α → Run β} (hx : Detached x) (hf : ∀ a, Detached (f a)) :
    Detached (x >>= f) := by
  rw [bind_eq_andThen]
  exact hx.andThen hf detached_fail

theorem Framed.bind {x : Run α} {f : α → Run β} (hx : Framed x) (hf : ∀ a, Framed (f a)) : Framed (x >>= f) := by
  rw [bind_eq_andThen]
  exact hx.andThen hf fun f => (detached_fail f).framed

theorem framed_pure (a : α) : Framed (Pure.pure a : Run α) := (detached_pure a).framed

theorem framed_ofExcept (r : Except Fault α) : Framed (ofExcept r) := (detached_ofExcept r).framed

theorem framed_ask (f : Population → Except PopulationError α) : Framed (ask f) := (detached_ask f).framed

theorem detached_report (line : Nat) (f : Fault) : Detached (report line f) :=
  .bind (detached_look fun _ _ _ => rfl) fun _ => detached_note _

/-- A node whose faults are reported if they satisfy `p`. -/
theorem Framed.reporting {x : Run α} (hx : Framed x) (p : Fault → Bool) (line : Nat) (a : α) :
    Framed (recover x p fun f => do report line f; return a) := by
  rw [recover_eq_andThen]
  refine hx.andThen framed_pure fun f => ?_
  split
  · exact .bind (detached_report line f).framed fun _ => framed_pure a
  · exact (detached_fail f).framed

/-! ## Variables -/

theorem framed_look {f : RunState → α} (h : ∀ s outer earlier, s.Alone → f (s.above outer earlier) = f s) :
    Framed (look f) := by
  constructor
  · exact fun s hs => hs
  · intro s outer earlier hs
    unfold look
    rw [h s outer earlier hs]
    rfl

/-- A change of the variables that looks at the newest scope and changes only that one. -/
def OnNewest (f : Scopes → Except ScopeError (α × Scopes)) : Prop :=
  ∀ scope, (∃ e, ∀ outer, f ⟨scope :: outer⟩ = .error e) ∨
    ∃ a scope', ∀ outer, f ⟨scope :: outer⟩ = .ok (a, ⟨scope' :: outer⟩)

theorem framed_changeScopes {f : Scopes → Except ScopeError (α × Scopes)} (h : OnNewest f) :
    Framed (changeScopes f) := by
  constructor
  · rintro ⟨p, ⟨stack⟩, a, j⟩ ⟨scope, hscope⟩
    cases hscope
    unfold changeScopes
    rcases h scope with ⟨e, he⟩ | ⟨v, scope', hok⟩
    · simp only [he]
      exact ⟨rfl, scope, rfl⟩
    · simp only [hok]
      exact ⟨scope', rfl⟩
  · rintro ⟨p, ⟨stack⟩, a, j⟩ outer earlier ⟨scope, hscope⟩
    cases hscope
    unfold changeScopes
    rcases h scope with ⟨e, he⟩ | ⟨v, scope', hok⟩
    · simp only [RunState.above, RunState.moved, List.cons_append, he]
      rfl
    · simp only [RunState.above, RunState.moved, List.cons_append, hok]
      rfl

theorem onNewest_install (name : String) (v : Value) : OnNewest fun t => (t.install name v).map ((), ·) := by
  intro scope
  cases ho : scope.overwrite? name v with
  | some scope' =>
    right
    refine ⟨(), scope', fun outer => ?_⟩
    simp only [Scopes.install, ho, Except.map]
  | none =>
    cases scope with
    | nil =>
      left
      refine ⟨.noBlock, fun outer => ?_⟩
      simp only [Scopes.install, ho, Except.map]
    | cons b bs =>
      right
      refine ⟨(), Table.put b name v :: bs, fun outer => ?_⟩
      simp only [Scopes.install, ho, Except.map]

theorem onNewest_slot (name : String) (default : Value) : OnNewest fun t => t.slot name default := by
  intro scope
  cases scope with
  | nil => exact .inl ⟨.noBlock, fun outer => rfl⟩
  | cons b bs => exact .inr ⟨_, _, fun outer => rfl⟩

theorem onNewest_enterBlock : OnNewest fun t => t.enterBlock.map ((), ·) :=
  fun scope => .inr ⟨(), [] :: scope, fun _ => rfl⟩

theorem onNewest_leaveBlock : OnNewest Scopes.leaveBlock := by
  intro scope
  cases scope with
  | nil => exact .inl ⟨.noBlock, fun outer => rfl⟩
  | cons b bs => exact .inr ⟨b, bs, fun outer => rfl⟩

theorem framed_install (name : String) (v : Value) : Framed (install name v) :=
  framed_changeScopes (onNewest_install name v)

theorem framed_writeArray (x : Slot) (items : List Value) : Framed (writeArray x items) := by
  constructor
  · rintro ⟨p, ⟨stack⟩, a, j⟩ ⟨scope, hscope⟩
    cases hscope
    exact ⟨_, rfl⟩
  · rintro ⟨p, ⟨stack⟩, a, j⟩ outer earlier ⟨scope, hscope⟩
    cases hscope
    rfl

/-- The value that was found for a name, or else what the model defines by it. -/
def orGlobal (name : String) : Option Value → Run Value
  | some v => return v
  | none => ask fun p => (p.findGlobal name).map .global

/-- Of the scopes, only the value of the name counts. -/
theorem readVariable_eq (name : String) : readVariable name = look (·.scopes.lookup name) >>= orGlobal name := by
  funext s
  show ask (resolveName s.scopes · name) s = orGlobal name (s.scopes.lookup name) s
  unfold resolveName
  cases s.scopes.lookup name with
  | some | none => rfl

theorem framed_readVariable (name : String) : Framed (readVariable name) := by
  rw [readVariable_eq]
  refine .bind (framed_look ?_) fun v? => ?_
  · rintro ⟨p, ⟨stack⟩, a, j⟩ outer earlier ⟨scope, hscope⟩
    cases hscope
    rfl
  · cases v? with
    | some v => exact framed_pure v
    | none => exact framed_ask fun p => (p.findGlobal name).map Value.global

/-! ## Steps inside something that is left again -/

section

variable {x : Run α}

theorem Detached.between (hx : Detached x) (enter leave : Activation → Activation) :
    Detached (between enter leave x) := by
  rw [between_eq_andThen]
  refine .bind (detached_modify fun _ _ _ => rfl) fun _ => hx.andThen (fun a => ?_) fun f => ?_
  · exact .bind (detached_modify fun _ _ _ => rfl) fun _ => detached_pure a
  · exact .bind (detached_modify fun _ _ _ => rfl) fun _ => detached_fail f

theorem Framed.between (hx : Framed x) (enter leave : Activation → Activation) : Framed (between enter leave x) := by
  have hmodify : ∀ g : Activation → Activation,
      Framed (Run.modify fun s => { s with activation := g s.activation }) :=
    fun g => (detached_modify fun _ _ _ => rfl).framed
  rw [between_eq_andThen]
  refine .bind (hmodify enter) fun _ => hx.andThen (fun a => ?_) fun f => ?_
  · exact .bind (hmodify leave) fun _ => framed_pure a
  · exact .bind (hmodify leave) fun _ => (detached_fail f).framed

theorem Detached.within (hx : Detached x) (a : Activation) : Detached (within a x) :=
  fun s t earlier => hx.between (fun _ => a) (fun _ => s.activation) s t earlier

theorem Framed.inBlock (hx : Framed x) : Framed (inBlock x) := by
  rw [inBlock_eq_andThen]
  refine .bind (framed_changeScopes onNewest_enterBlock) fun _ => hx.andThen (fun a => ?_) fun f => ?_
  · exact .bind (framed_changeScopes onNewest_leaveBlock) fun _ => framed_pure a
  · exact .bind (framed_changeScopes onNewest_leaveBlock) fun _ => (detached_fail f).framed

/-- In a scope of its own, a step does what it does with no scope around. -/
theorem Framed.inScope_eq (hx : Framed x) (s : RunState) (t : Scopes) (earlier : Journal) :
    inScope x (s.moved t earlier) =
      (x { s with scopes := ⟨[[]]⟩ }).mapState (·.moved t earlier) := by
  have halone := hx.alone { s with scopes := ⟨[[]]⟩ } ⟨[], rfl⟩
  have habove := hx.above { s with scopes := ⟨[[]]⟩ } t.stack earlier ⟨[], rfl⟩
  have hentered : { s.moved t earlier with scopes := (s.moved t earlier).scopes.enterScope } =
      RunState.above { s with scopes := ⟨[[]]⟩ } t.stack earlier := rfl
  unfold inScope
  rw [hentered, habove]
  cases hxs : x { s with scopes := ⟨[[]]⟩ } with
  | done a s' =>
    rw [hxs] at halone
    obtain ⟨scope, hscope⟩ := halone
    simp only [Outcome.mapState, RunState.above, RunState.moved, Scopes.leaveScope, hscope, List.singleton_append]
  | failed f s' =>
    rw [hxs] at halone
    obtain ⟨-, scope, hscope⟩ := halone
    simp only [Outcome.mapState, RunState.above, RunState.moved, Scopes.leaveScope, hscope, List.singleton_append]
  | exhausted => rfl

/-- The variables of a step in a scope of its own go with the scope. -/
theorem Framed.inScope (hx : Framed x) : Detached (inScope x) := by
  intro s t earlier
  have hself := hx.inScope_eq s s.scopes #[]
  rw [RunState.moved_self] at hself
  rw [hself, hx.inScope_eq, Outcome.mapState_mapState]
  simp only [RunState.moved_moved]

end

/-! ## Arrays -/

theorem framed_updateArray (name : String) (g : List Value → Except Fault (List Value)) (h : List Value → α) :
    Framed (updateArray name g h) := by
  have hslot : Framed (arraySlot name) := by
    refine .bind (framed_changeScopes (onNewest_slot name _)) fun x => .bind (framed_look ?_) fun v => ?_
    · rintro ⟨p, ⟨stack⟩, a, j⟩ outer earlier ⟨scope, hscope⟩
      cases hscope
      rfl
    · refine .bind (framed_ofExcept _) fun items => ?_
      exact .bind (framed_writeArray x items) fun _ => framed_pure _
  refine hslot.bind fun slot => .bind (framed_ofExcept _) fun items => ?_
  exact .bind (framed_writeArray _ items) fun _ => framed_pure _

end Run

end ObjectAction
