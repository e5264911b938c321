/-
The statements of a body as it is run: which of them begin and end, how they end, and where a loop turns to a pass. This
is a record in which expressions are not looked into, and neither are the bodies that they call.

It shows that nothing begins in a body that has been left: from there on the blocks and loops around the statement are
left one by one, and the statements around it end with its signal (`settled_bodyTrace`).
-/
import ObjectAction.Proofs.Run.Record

namespace ObjectAction

/-- Whether the signal leaves the body, through all loops around it. -/
def Signal.leavesBody : Signal → Bool
  | returned _ | stopped => true
  | normal | broke | continued => false

namespace Run

/-- What happens in the execution of a statement, where only the statements inside it are looked into. -/
def tracedExec (host : Host) : (fuel : Nat) → Origin → (st : Statement) → Record (exec host fuel st)
  | 0, _, _ => .step _
  | fuel + 1, origin, st =>
    Record.execStep host fuel (fun _ => .step _) (tracedExec host fuel origin) (fun _ _ => .step _)
      st.blocks.isEmpty origin st

/-- What happens among the statements of a body that is run from a state. -/
def bodyTrace (host : Host) (fuel : Nat) (b : Body) (s : RunState) : List Moment :=
  (Record.execBlock (tracedExec host fuel ⟨s.activation.label, b⟩) b.block).moments
    { s with scopes := s.scopes.enterScope }

/-- A statement that ends is traced from its begin to its end. -/
theorem tracedExec_done {host : Host} {fuel : Nat} {st : Statement} {s s' : RunState} {signal : Signal}
    (h : exec host fuel st s = .done signal s') (origin : Origin) :
    ∃ inner, (tracedExec host fuel origin st).moments s = .begins st :: inner ++ [.ends st signal s'] := by
  cases fuel with
  | zero => cases h
  | succ fuel => exact ⟨_, Record.moments_statement h⟩

/-! ## What is left one by one -/

/-- The second state is the first one, after blocks and loops around it were left. -/
structure Unwinds (s s' : RunState) : Prop where
  population : s'.population = s.population
  journal : s'.journal = s.journal
  derived : s'.activation.derived = s.activation.derived

theorem Unwinds.refl (s : RunState) : Unwinds s s := ⟨rfl, rfl, rfl⟩

theorem Unwinds.trans {s s₁ s₂ : RunState} (h₁ : Unwinds s s₁) (h₂ : Unwinds s₁ s₂) : Unwinds s s₂ :=
  ⟨h₂.population.trans h₁.population, h₂.journal.trans h₁.journal, h₂.derived.trans h₁.derived⟩

/-- Something is left around a statement that has ended with this signal in that state: nothing was done since but to
unwind, and a statement that ends here ends with the same signal. -/
def Moment.Unwinding (signal : Signal) (s : RunState) : Moment → Prop
  | .ends _ signal' s' => signal' = signal ∧ Unwinds s s'
  | .state s' => Unwinds s s'
  | .begins _ | .pass | .fault _ _ _ _ _ | .result _ _ => False

/-- From that state on there is only unwinding, up to an end with this signal. -/
structure UnwindsTo (signal : Signal) (s : RunState) (ms : List Moment) (o : Outcome Signal) : Prop where
  moments : ∀ m ∈ ms, m.Unwinding signal s
  ends : ∃ s', o = .done signal s' ∧ Unwinds s s'

section

variable {signal : Signal} {s s' : RunState}

theorem Moment.Unwinding.trans {m : Moment} (h : m.Unwinding signal s') (hs : Unwinds s s') :
    m.Unwinding signal s := by
  cases m with
  | ends => exact ⟨h.1, hs.trans h.2⟩
  | state => exact hs.trans h
  | begins | pass | fault | result => exact h

theorem UnwindsTo.trans {ms : List Moment} {o : Outcome Signal} (h : UnwindsTo signal s' ms o) (hs : Unwinds s s') :
    UnwindsTo signal s ms o := by
  obtain ⟨s₁, hdone, hunwinds⟩ := h.ends
  exact ⟨fun m hm => (h.moments m hm).trans hs, s₁, hdone, hs.trans hunwinds⟩

theorem unwindsTo_nil (signal : Signal) (s : RunState) : UnwindsTo signal s [] (.done signal s) :=
  ⟨fun _ hm => (List.not_mem_nil hm).elim, s, rfl, .refl s⟩

theorem unwindsTo_left (h : Unwinds s s') : UnwindsTo signal s (left (.done signal s')) (.done signal s') :=
  ⟨List.forall_mem_singleton.mpr h, s', rfl, h⟩

end

/-! ## Nothing begins in a body that was left -/

/-- If a statement leaves the body, there is only unwinding after it. -/
def Settled (ms : List Moment) (o : Outcome Signal) : Prop :=
  ∀ before st signal s after, ms = before ++ .ends st signal s :: after → signal.leavesBody = true →
    UnwindsTo signal s after o

/-- No statement ends in these moments. -/
def Endless (ms : List Moment) : Prop := ∀ st signal s, .ends st signal s ∉ ms

theorem endless_nil : Endless [] := fun _ _ _ hm => List.not_mem_nil hm

theorem endless_left {α : Type} (o : Outcome α) : Endless (left o) := by
  intro st signal s hm
  cases o with
  | done | failed => cases List.mem_singleton.mp hm
  | exhausted => cases hm

section

variable {ms first second : List Moment} {o o' : Outcome Signal}

theorem Endless.settled (h : Endless ms) (o : Outcome Signal) : Settled ms o := by
  rintro before st signal s after rfl
  exact absurd (List.mem_append_right _ List.mem_cons_self) (h st signal s)

/-- One after the other: what comes after a step that has left the body is unwinding. -/
theorem Settled.append (h : Settled first o) (h' : Settled second o')
    (hleft : ∀ signal s, o = .done signal s → signal.leavesBody = true → UnwindsTo signal s second o') :
    Settled (first ++ second) o' := by
  intro before st signal s after heq hleaves
  rcases List.append_eq_append_iff.mp heq with ⟨middle, hbefore, hsecond⟩ | ⟨middle, hfirst, hafter⟩
  · exact h' middle st signal s after hsecond hleaves
  · cases middle with
    | nil => exact h' [] st signal s after hafter.symm hleaves
    | cons m middle =>
      obtain ⟨rfl, rfl⟩ := List.cons.inj hafter
      obtain ⟨hmiddle, s₁, hdone, hunwinds⟩ := h before st signal s middle hfirst hleaves
      obtain ⟨hsecond, hends⟩ := (hleft signal s₁ hdone hleaves).trans hunwinds
      exact ⟨List.forall_mem_append.mpr ⟨hmiddle, hsecond⟩, hends⟩

/-- The end of a statement is the end of all that happens in it. -/
theorem settled_ends (st : Statement) (signal : Signal) (s : RunState) :
    Settled [.ends st signal s] (.done signal s) := by
  intro before st' signal' s' after heq _
  cases before with
  | nil =>
    obtain ⟨hends, rfl⟩ := List.cons.inj heq
    cases hends
    exact unwindsTo_nil signal s
  | cons m before =>
    have hlength := congrArg List.length heq
    simp at hlength

theorem Endless.append (h : Endless first) (h' : Settled second o) : Settled (first ++ second) o :=
  (h.settled .exhausted).append h' fun _ _ hdone => nomatch hdone

/-- Nothing more happens until the whole ends. -/
theorem Settled.mono (h : Settled ms o)
    (hleft : ∀ signal s, o = .done signal s → signal.leavesBody = true → UnwindsTo signal s [] o') :
    Settled ms o' := by
  rw [← List.append_nil ms]
  exact h.append (endless_nil.settled o') hleft

end

/-! ## Steps -/

/-- What happens in the step is settled, wherever a block is open. -/
def Record.Orderly {x : Run Signal} (r : Record x) : Prop := ∀ s, s.scopes.Open → Settled (r.moments s) (x s)

variable {α : Type} {F : Fault → Bool}

theorem Disciplined.open_of_done {k : Nat} {x y : Run α} (h : Disciplined F k x y) {s s' : RunState} {a : α}
    (hs : s.scopes.Open) (hdone : x s = .done a s') : s'.scopes.Open := by
  have hleaves := (h s hs).leaves
  rw [hdone] at hleaves
  exact hleaves.scopes.open

theorem orderly_step (x : Run Signal) : (Record.step x).Orderly := fun s _ => (endless_left (x s)).settled _

theorem orderly_done (signal : Signal) : (Record.done signal).Orderly := fun _ _ => endless_nil.settled _

namespace Record.Orderly

variable {x y : Run Signal} {rx : Record x}

/-- After a step that is not looked into. -/
theorem step_bind {k : Nat} {x y : Run α} (hx : Disciplined F k x y) {f : α → Run Signal} {rf : ∀ a, Record (f a)}
    (hf : ∀ a, (rf a).Orderly) : ((Record.step x).bind rf).Orderly := by
  intro s hs
  have hstep : Endless ((Record.step x).moments s) := endless_left (x s)
  cases hdone : x s with
  | done a s' =>
    rw [bind_done hdone, moments_bind_done hdone]
    exact hstep.append (hf a s' (hx.open_of_done hs hdone))
  | failed | exhausted =>
    rw [moments_bind_other (by simp [hdone])]
    exact hstep.settled _

/-- After a step that may leave the body: then the rest is left out. -/
theorem bind {k : Nat} (hd : Disciplined F k x y) (hx : rx.Orderly) {f : Signal → Run Signal}
    {rf : ∀ signal, Record (f signal)} (hf : ∀ signal, (rf signal).Orderly)
    (hleft : ∀ signal s, signal.leavesBody = true → UnwindsTo signal s ((rf signal).moments s) (f signal s)) :
    (rx.bind rf).Orderly := by
  intro s hs
  have hsettled := hx s hs
  cases hdone : x s with
  | done signal s' =>
    rw [hdone] at hsettled
    rw [bind_done hdone, moments_bind_done hdone]
    refine hsettled.append (hf signal s' (hd.open_of_done hs hdone)) fun signal' s'' heq hleaves => ?_
    cases heq
    exact hleft signal s' hleaves
  | failed | exhausted =>
    rw [moments_bind_other (by simp [hdone])]
    exact hsettled.mono (by simp [hdone])

theorem either {c : Bool} {ry : Record y} (hx : rx.Orderly) (hy : ry.Orderly) : (Record.either c rx ry).Orderly := by
  cases c with
  | true => exact hx
  | false => exact hy

theorem turning (hx : rx.Orderly) : rx.turning.Orderly := by
  intro s hs
  have hpass : Endless [.pass] := fun _ _ _ hm => nomatch List.mem_singleton.mp hm
  exact hpass.append (hx s hs)

theorem closedIf {c : Bool} (hx : c = false → rx.Orderly) : (rx.closedIf c).Orderly := by
  cases c with
  | true => exact orderly_step x
  | false => exact hx rfl

/-- A statement that left the body did not fail, so there is nothing to report. -/
theorem reporting {origin : Origin} {node : Node} {p : Fault → Bool} {signal : Signal} (hx : rx.Orderly) :
    (rx.reporting origin node p signal).Orderly := by
  intro s hs
  have hsettled := hx s hs
  by_cases hreported : ∃ f s', x s = .failed f s' ∧ p f = true
  · obtain ⟨f, s', hfailed, hp⟩ := hreported
    have hendless : Endless [.fault origin node f s s', .state (noted node.line f s')] := by
      intro st signal' s₁ hm
      simp at hm
    rw [moments_reporting hfailed hp]
    exact hsettled.append (hendless.settled _) (by simp [hfailed])
  · rw [moments_reporting_other fun f s' h => Bool.eq_false_of_not_eq_true fun hp => hreported ⟨f, s', h, hp⟩]
    refine hsettled.mono fun signal' s' hdone _ => ?_
    unfold recover
    rw [hdone]
    exact unwindsTo_nil signal' s'

/-- The end of a statement happens last in it. -/
theorem statement (hx : rx.Orderly) (st : Statement) : (rx.statement st).Orderly := by
  intro s hs
  have hbegins : Endless [.begins st] := fun _ _ _ hm => nomatch List.mem_singleton.mp hm
  have hsettled := hx s hs
  cases hdone : x s with
  | done signal s' =>
    rw [hdone] at hsettled
    rw [moments_statement hdone]
    refine hbegins.append (hsettled.append (settled_ends st signal s') fun signal' s'' heq _ => ?_)
    cases heq
    exact ⟨List.forall_mem_singleton.mpr ⟨rfl, .refl s'⟩, s', rfl, .refl s'⟩
  | failed | exhausted =>
    rw [hdone] at hsettled
    rw [moments_statement_other (by simp [hdone])]
    exact hbegins.append hsettled

/-- A step that is entered and left again, where leaving it is unwinding. -/
theorem enclosed (hx : rx.Orderly) {s : RunState} (entered : RunState) (hopen : entered.scopes.Open)
    (hleft : ∀ signal s', x entered = .done signal s' → ∃ s'', y s = .done signal s'' ∧ Unwinds s' s'') :
    Settled (.state entered :: rx.moments entered ++ left (y s)) (y s) := by
  have hentered : Endless [.state entered] := fun _ _ _ hm => nomatch List.mem_singleton.mp hm
  refine hentered.append ((hx entered hopen).append ((endless_left _).settled _) fun signal s' hdone _ => ?_)
  obtain ⟨s'', hy, hunwinds⟩ := hleft signal s' hdone
  rw [hy]
  exact unwindsTo_left hunwinds

theorem withLoop (hx : rx.Orderly) (c : LoopCursor) : (rx.withLoop c).Orderly := by
  intro s hs
  refine hx.enclosed _ hs fun signal s' hdone => ?_
  refine ⟨{ s' with activation := { s'.activation with loops := s'.activation.loops.tail } }, ?_, rfl, rfl, rfl⟩
  unfold Run.between
  rw [hdone]

/-- A block can be entered in a scope, and always be left again. -/
theorem settled_inBlock (hd : Disciplined F 0 x y) (hx : rx.Orderly) (s : RunState) (hs : s.scopes.stack ≠ []) :
    Settled (rx.inBlock.moments s) (Run.inBlock x s) := by
  obtain ⟨p, ⟨stack⟩, a, j⟩ := s
  obtain ⟨sc, outer, rfl⟩ := List.exists_cons_of_ne_nil hs
  have hopen : Scopes.Open ⟨([] :: sc) :: outer⟩ := ⟨_, _, _, rfl⟩
  refine hx.enclosed ⟨p, ⟨([] :: sc) :: outer⟩, a, j⟩ hopen fun signal s' hdone => ?_
  have hleaves := (hd ⟨p, ⟨([] :: sc) :: outer⟩, a, j⟩ hopen).leaves
  rw [hdone] at hleaves
  obtain ⟨bindings, t, ht, -⟩ := Scopes.leaveBlock_keeps hleaves.scopes
  refine ⟨{ s' with scopes := t }, ?_, rfl, rfl, rfl⟩
  unfold Run.inBlock
  dsimp only [Scopes.enterBlock]
  rw [hdone]
  dsimp only
  rw [ht]

end Record.Orderly

/-! ## Statements -/

section

variable {exec exec' : Statement → Run Signal} {rx : ∀ st, Record (exec st)}
  (hd : ∀ st, Disciplined F 0 (exec st) (exec' st)) (hX : ∀ st, (rx st).Orderly)

include hd hX

theorem orderly_execAll (sts : List Statement) : (Record.execAll rx sts).Orderly := by
  induction sts with
  | nil => exact orderly_done _
  | cons st rest ih =>
    refine .bind (hd st) (hX st) (fun signal => ?_) fun signal s hleaves => ?_
    · cases signal with
      | normal => exact ih
      | returned | broke | continued | stopped => exact orderly_done _
    · cases signal with
      | returned | stopped => exact unwindsTo_nil _ s
      | normal | broke | continued => cases hleaves

theorem settled_execBlock (b : Block) (s : RunState) (hs : s.scopes.stack ≠ []) :
    Settled ((Record.execBlock rx b).moments s) (execBlock exec b s) :=
  (orderly_execAll hd hX b.statements).settled_inBlock (disciplined_execAll hd b.statements) s hs

theorem orderly_execBlock (b : Block) : (Record.execBlock rx b).Orderly :=
  fun s hs => settled_execBlock hd hX b s hs.stack_ne_nil

end

section

variable {body body' : Run Signal} {rb : Record body} (hd : Disciplined F 0 body body') (hb : rb.Orderly)

include hd hb

/-- A pass, and what a loop does after it. -/
theorem orderly_pass {rest : Run Signal} {rr : Record rest} (hr : rr.Orderly) :
    (rb.bind fun signal => rr.afterPass signal).Orderly := by
  refine .bind hd hb (fun signal => ?_) fun signal s hleaves => ?_
  · cases signal with
    | normal | continued => exact hr
    | broke | returned | stopped => exact orderly_done _
  · cases signal with
    | returned | stopped => exact unwindsTo_nil _ s
    | normal | broke | continued => cases hleaves

theorem orderly_passes (item : String) (refs : List InstanceRef) (index : Nat) :
    (rb.passes item index refs).Orderly := by
  induction refs generalizing index with
  | nil => exact orderly_done _
  | cons r rest ih =>
    refine .turning (.step_bind (disciplined_setPass (F := F) index) fun _ => ?_)
    exact .step_bind (disciplined_install (F := F) (k := 0) item _) fun _ => orderly_pass hd hb (ih (index + 1))

theorem orderly_forEach (item set : String) : (rb.forEach item set).Orderly := by
  refine .step_bind (quiet_readVariable set).disciplined (k := 0) fun v => ?_
  refine .step_bind (quiet_expectInstances _ v).disciplined (k := 0) fun refs => ?_
  exact (orderly_passes hd hb item refs 0).withLoop _

theorem orderly_whileTrue {G : Fault → Bool} {condition condition' : Run Value}
    (hcondition : Disciplined G 0 condition condition') (fuel : Nat) :
    (rb.whileTrue (.step condition) fuel).Orderly := by
  induction fuel with
  | zero => exact orderly_step _
  | succ fuel ih =>
    exact .turning (.step_bind hcondition fun v => .either (orderly_pass hd hb ih) (orderly_done _))

end

section

variable {host : Host} {fuel : Nat} {eval eval' : Expression → Run Value} {exec exec' : Statement → Run Signal}
  {activate : Activation → Body → Run Value} {rx : ∀ st, Record (exec st)}
  (hE : ∀ e, Disciplined Fault.isRecoverable 0 (eval e) (eval' e)) (hd : ∀ st, Disciplined F 0 (exec st) (exec' st))
  (hX : ∀ st, (rx st).Orderly)

include hE hd hX

theorem orderly_execElifs (otherwise : Option Block) (elifs : List Elif) :
    (Record.execElifs (fun e => .step (eval e)) rx otherwise elifs).Orderly := by
  induction elifs with
  | nil =>
    cases otherwise with
    | some b => exact orderly_execBlock hd hX b
    | none => exact orderly_done _
  | cons elif rest ih =>
    obtain ⟨extent, condition, b⟩ := elif
    exact .step_bind (hE condition) fun v => .either (orderly_execBlock hd hX b) ih

theorem orderly_execForm (st : Statement) (hst : st.blocks.isEmpty = false) :
    (Record.execForm host fuel (fun e => .step (eval e)) rx (fun a b => .step (activate a b)) st).Orderly := by
  cases st with
  | forEach extent item set b =>
    exact orderly_forEach (disciplined_execBlock hd b) (orderly_execBlock hd hX b) item set
  | whileLoop extent condition b =>
    exact orderly_whileTrue (disciplined_execBlock hd b) (orderly_execBlock hd hX b) (hE condition) fuel
  | branch extent condition b elifs otherwise =>
    refine .step_bind (hE condition) fun v => .either (orderly_execBlock hd hX b) ?_
    exact orderly_execElifs hE hd hX otherwise elifs
  | _ => cases hst

end

theorem orderly_tracedExec (host : Host) (fuel : Nat) (origin : Origin) (st : Statement) :
    (tracedExec host fuel origin st).Orderly := by
  induction fuel generalizing st with
  | zero => exact orderly_step _
  | succ fuel ih =>
    have hform : st.blocks.isEmpty = false → (Record.execForm host fuel (fun e => .step (eval host fuel e))
        (tracedExec host fuel origin) (fun a b => .step (activate host fuel a b)) st).Orderly :=
      orderly_execForm (disciplined_eval host fuel) (disciplined_exec host fuel) ih st
    exact (Record.Orderly.closedIf hform).reporting.statement st

/-- What happens among the statements of a body is settled. -/
theorem settled_bodyTrace (host : Host) (fuel : Nat) (b : Body) (s : RunState) :
    Settled (bodyTrace host fuel b s)
      (execBlock (exec host fuel) b.block { s with scopes := s.scopes.enterScope }) :=
  settled_execBlock (disciplined_exec host fuel) (orderly_tracedExec host fuel _) b.block _ (List.cons_ne_nil _ _)

end Run

end ObjectAction
