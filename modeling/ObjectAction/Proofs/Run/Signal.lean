/-
Signals and their owners. A block ends with a signal only if it contains a statement that raises it, where
`break` and `continue` do not count inside a loop of the block. A body is over as soon as a statement leaves it,
at whatever depth. And whatever signal a body ends with, to its caller it is a value.

Main statement: `signals_reach_owner`.
-/
import ObjectAction.Proofs.Run.Trace

namespace ObjectAction

/-! ## Where a signal comes from -/

def Statement.isLoop : Statement → Bool
  | forEach _ _ _ _ | whileLoop _ _ _ => true
  | _ => false

/-- The statement is one of these, or it stands in a block of one of them at any depth; in a block of a loop only if
`intoLoops` says so. -/
inductive Encloses (intoLoops : Bool) : List Statement → Statement → Prop
  | here {sts : List Statement} {st : Statement} : st ∈ sts → Encloses intoLoops sts st
  | deeper {sts : List Statement} {outer st : Statement} {b : Block} : outer ∈ sts →
      (outer.isLoop = true → intoLoops = true) → b ∈ outer.blocks → Encloses intoLoops b.statements st →
      Encloses intoLoops sts st

theorem Encloses.mono {intoLoops : Bool} {sts sts' : List Statement} {st : Statement}
    (h : Encloses intoLoops sts st) (hsub : ∀ outer ∈ sts, outer ∈ sts') : Encloses intoLoops sts' st := by
  cases h with
  | here hst => exact .here (hsub st hst)
  | deeper houter hloop hb hst => exact .deeper (hsub _ houter) hloop hb hst

namespace Signal

/-- Whether executing a statement of this form is what raises the signal. -/
def raisedBy : Signal → Statement → Bool
  | returned _, .returnValue _ _ => true
  | stopped, .stop _ => true
  | broke, .breakLoop _ => true
  | continued, .continueLoop _ => true
  | _, _ => false

/-- The statements contain one that raises the signal, if it is one. What leaves the body comes from any depth,
and what concerns a loop from outside of all loops. -/
def ComesFrom (signal : Signal) (sts : List Statement) : Prop :=
  signal = normal ∨ ∃ st, Encloses signal.leavesBody sts st ∧ signal.raisedBy st = true

/-- The value of a body that ends with the signal. In an activation that computes an attribute, what was assigned
to it takes the place of null. -/
def value (signal : Signal) (derived : Option DerivedCell) : Value :=
  match (match signal with | returned v => v | _ => .null), derived with
  | .null, some cell => cell.result
  | v, _ => v

theorem ComesFrom.mono {signal : Signal} {sts sts' : List Statement} (h : signal.ComesFrom sts)
    (hsub : ∀ st ∈ sts, st ∈ sts') : signal.ComesFrom sts' := by
  rcases h with h | ⟨st, hst, hraised⟩
  · exact .inl h
  · exact .inr ⟨st, hst.mono hsub, hraised⟩

/-- Out of a block of a statement. -/
theorem ComesFrom.outer {signal : Signal} {b : Block} (h : signal.ComesFrom b.statements) {st : Statement}
    (hb : b ∈ st.blocks) (hloop : st.isLoop = true → signal.leavesBody = true) : signal.ComesFrom [st] := by
  rcases h with h | ⟨inner, hinner, hraised⟩
  · exact .inl h
  · exact .inr ⟨inner, .deeper (List.mem_singleton.mpr rfl) hloop hb hinner, hraised⟩

/-- No loop ends with a signal for a loop. -/
theorem ComesFrom.of_loop {signal : Signal} {st : Statement} (h : signal.ComesFrom [st]) (hloop : st.isLoop = true) :
    signal ≠ broke ∧ signal ≠ continued := by
  refine ⟨?_, ?_⟩
  all_goals
    rintro rfl
    rcases h with h | ⟨inner, hinner, hraised⟩
    · cases h
    · cases hinner with
      | here hst =>
        rw [List.mem_singleton.mp hst] at hraised
        cases st with
        | forEach | whileLoop => cases hraised
        | _ => cases hloop
      | deeper houter hinto hb hst =>
        rw [List.mem_singleton.mp houter] at hinto
        exact nomatch hinto hloop

/-- A statement without blocks ends normally, unless it raises a signal itself. -/
theorem ComesFrom.of_no_blocks {signal : Signal} {st : Statement} (h : signal.ComesFrom [st])
    (hblocks : st.blocks = []) : signal = normal ∨ signal.raisedBy st = true := by
  rcases h with h | ⟨inner, hinner, hraised⟩
  · exact .inl h
  · cases hinner with
    | here hst =>
      rw [List.mem_singleton.mp hst] at hraised
      exact .inr hraised
    | deeper houter hinto hb hst =>
      rw [List.mem_singleton.mp houter, hblocks] at hb
      exact (List.not_mem_nil hb).elim

end Signal

namespace Run

/-! ## Signals of steps -/

variable {α : Type} {P Q : Signal → Prop}

/-- If the step is done, its signal is one of `P`. -/
def Yields (P : Signal → Prop) (x : Run Signal) : Prop := ∀ s signal s', x s = .done signal s' → P signal

theorem yields_pure {signal : Signal} (h : P signal) : Yields P (pure signal) := by
  rintro s signal' s' ⟨⟩
  exact h

theorem yields_exhausted : Yields P exhausted := nofun

theorem Yields.mono {x : Run Signal} (h : Yields P x) (hPQ : ∀ signal, P signal → Q signal) : Yields Q x :=
  fun s signal s' hdone => hPQ signal (h s signal s' hdone)

theorem done_of_bind {β : Type} {x : Run α} {f : α → Run β} {s s' : RunState} {b : β}
    (h : (x >>= f) s = .done b s') : ∃ a s₁, x s = .done a s₁ ∧ f a s₁ = .done b s' := by
  have h' : Run.bind x f s = .done b s' := h
  unfold Run.bind at h'
  cases hx : x s with
  | done a s₁ =>
    rw [hx] at h'
    exact ⟨a, s₁, rfl, h'⟩
  | failed | exhausted =>
    rw [hx] at h'
    cases h'

theorem Yields.bind {x : Run α} {f : α → Run Signal} (hf : ∀ a, Yields P (f a)) : Yields P (x >>= f) := by
  intro s signal s' h
  obtain ⟨a, s₁, -, ha⟩ := done_of_bind h
  exact hf a s₁ signal s' ha

/-- What a step does with the signal of the one before. -/
theorem Yields.bind_signal {x : Run Signal} {f : Signal → Run Signal} (hx : Yields Q x)
    (hf : ∀ signal, Q signal → Yields P (f signal)) : Yields P (x >>= f) := by
  intro s signal s' h
  obtain ⟨signal₁, s₁, hdone, ha⟩ := done_of_bind h
  exact hf signal₁ (hx s signal₁ s₁ hdone) s₁ signal s' ha

theorem Yields.recover {x : Run Signal} (hx : Yields P x) (p : Fault → Bool) {rest : Fault → Run Signal}
    (hrest : ∀ f, Yields P (rest f)) : Yields P (recover x p rest) := by
  intro s signal s' h
  unfold Run.recover at h
  cases hdone : x s with
  | done signal₁ s₁ =>
    rw [hdone] at h
    cases h
    exact hx s signal s' hdone
  | failed f s₁ =>
    rw [hdone] at h
    dsimp only at h
    split at h
    · exact hrest f s₁ signal s' h
    · cases h
  | exhausted =>
    rw [hdone] at h
    cases h

theorem Yields.withLoop {x : Run Signal} (hx : Yields P x) (c : LoopCursor) : Yields P (withLoop c x) := by
  intro s signal s' h
  unfold Run.withLoop between at h
  dsimp only at h
  split at h
  · rename_i hdone
    cases h
    exact hx _ _ _ hdone
  · cases h
  · cases h

theorem Yields.inBlock {x : Run Signal} (hx : Yields P x) : Yields P (inBlock x) := by
  intro s signal s' h
  unfold Run.inBlock at h
  split at h
  · cases h
  · split at h
    · cases h
    · rename_i hdone
      split at h
      · cases h
        exact hx _ _ _ hdone
      · cases h
    · split at h
      · cases h
      · cases h

/-! ## Signals of statements -/

section

variable {exec : Statement → Run Signal} (hX : ∀ st, Yields (·.ComesFrom [st]) (exec st))

include hX

theorem yields_execAll (sts : List Statement) : Yields (·.ComesFrom sts) (execAll exec sts) := by
  induction sts with
  | nil => exact yields_pure (.inl rfl)
  | cons st rest ih =>
    have hfirst : ∀ outer ∈ [st], outer ∈ st :: rest := by simp
    have hrest : ∀ outer ∈ rest, outer ∈ st :: rest := by simp +contextual
    refine .bind_signal (hX st) fun signal hsignal => ?_
    cases signal with
    | normal => exact ih.mono fun signal h => h.mono hrest
    | returned | broke | continued | stopped => exact yields_pure (hsignal.mono hfirst)

theorem yields_execBlock (b : Block) : Yields (·.ComesFrom b.statements) (execBlock exec b) :=
  (yields_execAll hX b.statements).inBlock

/-- A branch passes on what the block ends with that it chooses. -/
theorem yields_execElifs (eval : Expression → Run Value) (otherwise : Option Block) (elifs : List Elif) :
    Yields (fun signal => signal = .normal ∨ ∃ b ∈ elifs.map Elif.block ++ otherwise.toList,
      signal.ComesFrom b.statements) (execElifs eval exec otherwise elifs) := by
  induction elifs with
  | nil =>
    cases otherwise with
    | some b => exact (yields_execBlock hX b).mono fun signal h => .inr ⟨b, by simp, h⟩
    | none => exact yields_pure (.inl rfl)
  | cons elif rest ih =>
    obtain ⟨extent, condition, b⟩ := elif
    refine .bind fun v => ?_
    cases v.isTruthy with
    | true => exact (yields_execBlock hX b).mono fun signal h => .inr ⟨b, by simp [Elif.block], h⟩
    | false =>
      refine ih.mono fun signal h => ?_
      rcases h with h | ⟨b', hb', h⟩
      · exact .inl h
      · exact .inr ⟨b', List.mem_cons_of_mem _ hb', h⟩

end

section

variable {body : Run Signal} (hbody : Yields P body)

include hbody

/-- A loop passes on what leaves the body, and nothing else. -/
theorem yields_afterPass {rest : Run Signal}
    (hrest : Yields (fun signal => signal = .normal ∨ signal.leavesBody = true ∧ P signal) rest) :
    Yields (fun signal => signal = .normal ∨ signal.leavesBody = true ∧ P signal)
      (body >>= fun signal => afterPass signal rest) := by
  refine .bind_signal hbody fun signal hsignal => ?_
  cases signal with
  | normal | continued => exact hrest
  | broke => exact yields_pure (.inl rfl)
  | returned | stopped => exact yields_pure (.inr ⟨rfl, hsignal⟩)

theorem yields_passes (item : String) (refs : List InstanceRef) (index : Nat) :
    Yields (fun signal => signal = .normal ∨ signal.leavesBody = true ∧ P signal) (passes item body index refs) := by
  induction refs generalizing index with
  | nil => exact yields_pure (.inl rfl)
  | cons r rest ih => exact .bind fun _ => .bind fun _ => yields_afterPass hbody (ih (index + 1))

theorem yields_whileTrue (condition : Run Value) (fuel : Nat) :
    Yields (fun signal => signal = .normal ∨ signal.leavesBody = true ∧ P signal)
      (whileTrue condition body fuel) := by
  induction fuel with
  | zero => exact yields_exhausted
  | succ fuel ih =>
    refine .bind fun v => ?_
    cases v.isTruthy with
    | true => exact yields_afterPass hbody ih
    | false => exact yields_pure (.inl rfl)

end

section

variable {exec : Statement → Run Signal} (hX : ∀ st, Yields (·.ComesFrom [st]) (exec st))

include hX

theorem yields_execForm (host : Host) (fuel : Nat) (eval : Expression → Run Value)
    (activate : Activation → Body → Run Value) (st : Statement) :
    Yields (·.ComesFrom [st]) (execForm host fuel eval exec activate st) := by
  have hnormal : Yields (·.ComesFrom [st]) (pure Signal.normal) := yields_pure (.inl rfl)
  have hraised : ∀ signal : Signal, signal.raisedBy st = true → Yields (·.ComesFrom [st]) (pure signal) :=
    fun signal h => yields_pure (.inr ⟨st, .here (List.mem_singleton.mpr rfl), h⟩)
  -- what a loop passes on may come from inside of it
  have hloop : ∀ {b : Block} {x : Run Signal}, b ∈ st.blocks →
      Yields (fun signal => signal = .normal ∨ signal.leavesBody = true ∧ signal.ComesFrom b.statements) x →
      Yields (·.ComesFrom [st]) x := by
    intro b x hb hx
    refine hx.mono fun signal h => ?_
    rcases h with h | ⟨hleaves, h⟩
    · exact .inl h
    · exact h.outer hb fun _ => hleaves
  cases st with
  | breakLoop | continueLoop | stop => exact hraised _ rfl
  | returnValue extent value =>
    cases value with
    | none => exact hraised _ rfl
    | some e => exact .bind fun v => hraised _ rfl
  | assign => exact .bind fun v => .bind fun p => .bind fun _ => hnormal
  | invoke => exact .bind fun _ => hnormal
  | create extent name className =>
    refine .bind fun r => ?_
    cases name with
    | some name => exact .bind fun _ => hnormal
    | none => exact hnormal
  | delete => exact .bind fun r => .bind fun _ => hnormal
  | relate | unrelate => exact .bind fun _ => hnormal
  | selectFrom => exact .bind fun candidates => .bind fun refs => .bind fun _ => hnormal
  | selectRelated => exact .bind fun refs => .bind fun reached => .bind fun kept => .bind fun _ => hnormal
  | forEach extent item set b =>
    refine hloop (b := b) (by simp [Statement.blocks]) ?_
    refine .bind fun v => .bind fun refs => ?_
    exact (yields_passes (yields_execBlock hX b) item refs 0).withLoop _
  | whileLoop extent condition b =>
    refine hloop (b := b) (by simp [Statement.blocks]) ?_
    exact yields_whileTrue (yields_execBlock hX b) (eval condition) fuel
  | branch extent condition b elifs otherwise =>
    refine .bind fun v => ?_
    cases v.isTruthy with
    | true => exact (yields_execBlock hX b).mono fun signal h => h.outer (by simp [Statement.blocks]) nofun
    | false =>
      refine (yields_execElifs hX eval otherwise elifs).mono fun signal h => ?_
      rcases h with h | ⟨b', hb', h⟩
      · exact .inl h
      · exact h.outer (List.mem_cons_of_mem b hb') nofun
  | generate => exact .bind fun e => .bind fun _ => hnormal
  | createEvent => exact .bind fun e => .bind fun _ => hnormal
  | generateCreated extent name =>
    refine .bind fun v => ?_
    cases v with
    | _ => exact .bind fun _ => hnormal

end

/-- A statement ends with signals only that it contains. -/
theorem yields_exec (host : Host) (fuel : Nat) (st : Statement) :
    Yields (·.ComesFrom [st]) (exec host fuel st) := by
  induction fuel generalizing st with
  | zero => exact yields_exhausted
  | succ fuel ih =>
    refine (yields_execForm ih host fuel _ _ st).recover _ fun f => ?_
    exact .bind fun _ => yields_pure (.inl rfl)

/-! ## Bodies -/

/-- The value of a body is that of the signal it ends with. -/
theorem execBody_done {exec : Statement → Run Signal} {b : Body} {s s' : RunState} {signal : Signal}
    (h : inScope (execBlock exec b.block) s = .done signal s') :
    execBody exec b s = .done (signal.value s'.activation.derived) s' := by
  unfold execBody
  rw [bind_done h]
  have hlook : look (·.activation.derived) s' = .done s'.activation.derived s' := rfl
  rw [bind_done hlook]
  unfold Signal.value
  generalize s'.activation.derived = derived
  cases signal with
  | returned v =>
    cases v with
    | null =>
      cases derived with
      | none | some => rfl
    | _ => rfl
  | normal | broke | continued | stopped =>
    cases derived with
    | none | some => rfl

/-- A body ends where a statement leaves it: no statement begins after that and no loop goes on, and the population
and the journal are as that statement left them. -/
theorem execBody_of_leaving {host : Host} {fuel : Nat} {b : Body} {s s₁ : RunState}
    {before after : List Moment} {st : Statement} {signal : Signal}
    (h : bodyTrace host fuel b s = before ++ .ends st signal s₁ :: after)
    (hleaves : signal.leavesBody = true) :
    (∀ m ∈ after, m.Unwinding signal s₁) ∧
      execBody (exec host fuel) b s = .done (signal.value s₁.activation.derived)
        { s₁ with
          scopes := s.scopes
          activation := { s.activation with derived := s₁.activation.derived } } := by
  obtain ⟨hafter, s₂, hdone, hunwinds⟩ := settled_bodyTrace host fuel b s before st signal s₁ after h hleaves
  refine ⟨hafter, ?_⟩
  have hkeeps := (keepsNames_execBlock (disciplined_exec host fuel) b.block
    { s with scopes := s.scopes.enterScope } (List.cons_ne_nil _ _)).leaves
  rw [hdone] at hkeeps
  obtain ⟨bindings, hleave⟩ := Scopes.leaveScope_eq hkeeps.scopes
  have hscope : inScope (execBlock (exec host fuel) b.block) s = .done signal { s₂ with scopes := s.scopes } := by
    unfold inScope
    rw [hdone]
    dsimp only
    rw [hleave]
  rw [execBody_done hscope]
  obtain ⟨p₁, t₁, ⟨l₁, r₁, g₁, d₁, c₁, o₁⟩, j₁⟩ := s₁
  obtain ⟨p₂, t₂, ⟨l₂, r₂, g₂, d₂, c₂, o₂⟩, j₂⟩ := s₂
  obtain ⟨rfl, rfl, rfl⟩ := hunwinds
  obtain ⟨hlabel, hreceiver, harguments, hcandidates, hloops⟩ := hkeeps.activation
  dsimp only at hlabel hreceiver harguments hcandidates hloops
  rw [List.drop_zero, List.drop_zero] at hloops
  subst hlabel hreceiver harguments hcandidates hloops
  rfl

/-- Of a body that is called, the caller sees a value and what it did to the population and the journal. -/
theorem activate_done {host : Host} {fuel : Nat} {a : Activation} {b : Body} {s s' : RunState}
    {signal : Signal}
    (h : inScope (execBlock (exec host fuel) b.block) { s with activation := a } = .done signal s') :
    activate host (fuel + 1) a b s = .done (signal.value s'.activation.derived)
      { s with population := s'.population, journal := s'.journal } := by
  have hrestores := ((keepsNames_execBlock (disciplined_exec host fuel) b.block).inScope
    { s with activation := a }).leaves
  rw [h] at hrestores
  have hscopes : s'.scopes = s.scopes := hrestores.scopes
  unfold activate within between
  dsimp only
  rw [execBody_done h, ← hscopes]

/-- Every signal reaches its owner and nobody else. A block ends only with a signal of a statement in it, which
for `break` and `continue` stands outside of its loops, and a loop never ends with these two. The trace of a statement
goes from where it begins to where it ends, with the signal that it ends with. If a statement anywhere in a body
leaves it, what happens afterwards is only that the blocks and loops around it are left and the statements around it
end with the same signal: no statement begins and no loop turns to another pass, and the value of the body is that of
the signal. A statement without blocks raises no signal but its own, whatever it calls, since a call gives the value of
the signal that the called body ends with. -/
theorem signals_reach_owner (host : Host) (fuel : Nat) :
    (∀ b s signal s', execBlock (exec host fuel) b s = .done signal s' → signal.ComesFrom b.statements) ∧
    (∀ st s signal s', st.isLoop = true → exec host fuel st s = .done signal s' →
      signal ≠ .broke ∧ signal ≠ .continued) ∧
    (∀ origin st s signal s', exec host fuel st s = .done signal s' → ∃ inner,
      (tracedExec host fuel origin st).moments s = .begins st :: inner ++ [.ends st signal s']) ∧
    (∀ b s before st signal s₁ after, bodyTrace host fuel b s = before ++ .ends st signal s₁ :: after →
      signal.leavesBody = true → (∀ m ∈ after, m.Unwinding signal s₁) ∧
      execBody (exec host fuel) b s = .done (signal.value s₁.activation.derived)
        { s₁ with
          scopes := s.scopes
          activation := { s.activation with derived := s₁.activation.derived } }) ∧
    (∀ st s signal s', st.blocks = [] → exec host fuel st s = .done signal s' →
      signal = .normal ∨ signal.raisedBy st = true) ∧
    ∀ a b s signal s',
      inScope (execBlock (exec host fuel) b.block) { s with activation := a } = .done signal s' →
      activate host (fuel + 1) a b s = .done (signal.value s'.activation.derived)
        { s with population := s'.population, journal := s'.journal } := by
  have hX := yields_exec host fuel
  refine ⟨?_, ?_, fun origin st s signal s' hdone => tracedExec_done hdone origin, ?_, ?_, ?_⟩
  · exact fun b => yields_execBlock hX b
  · intro st s signal s' hloop hdone
    exact (hX st s signal s' hdone).of_loop hloop
  · intro b s before st signal s₁ after htrace hleaves
    exact execBody_of_leaving htrace hleaves
  · intro st s signal s' hblocks hdone
    exact (hX st s signal s' hdone).of_no_blocks hblocks
  · intro a b s signal s' hdone
    exact activate_done hdone

/-- `while (true) if (true) return 7; break; end if; control stop; end while; return;` -/
def nestedReturn : Body :=
  ⟨.nowhere, .mk .nowhere [
    .whileLoop .nowhere (.boolean .nowhere true) (.mk .nowhere [
      .branch .nowhere (.boolean .nowhere true) (.mk .nowhere [
        .returnValue .nowhere (some (.integer .nowhere 7)),
        .breakLoop .nowhere]) [] none,
      .stop .nowhere]),
    .returnValue .nowhere none]⟩

/-- `break;` where there is no loop. -/
def strayBreak : Body := ⟨.nowhere, .mk .nowhere [.breakLoop .nowhere]⟩

/-- The statement `return 7;` ends the body two levels above it; a `break` that no loop owns ends its body, and the
caller sees null. -/
theorem signals_reach_owner_nestedReturn :
    (∃ before s₁ after, bodyTrace (.bare .off) 5 nestedReturn nestedState =
        before ++ .ends (.returnValue .nowhere (some (.integer .nowhere 7))) (.returned (.integer 7)) s₁ :: after ∧
      before.length = 10 ∧ after.length = 5 ∧ ∀ m ∈ after, m.Unwinding (.returned (.integer 7)) s₁) ∧
    execBody (exec (.bare .off) 5) nestedReturn nestedState = .done (.integer 7) nestedState ∧
    (Signal.returned (.integer 7)).ComesFrom nestedReturn.block.statements ∧
    Signal.normal ≠ .broke ∧
    (Signal.continued = .normal ∨ Signal.raisedBy .continued (.continueLoop .nowhere) = true) ∧
    activate (.bare .off) 3 (.start "g" none []) strayBreak nestedState = .done .null nestedState := by
  obtain ⟨hblock, -, -, hbody, -, -⟩ := signals_reach_owner (.bare .off) 5
  obtain ⟨-, hloop, -, -, hstatement, hcall⟩ := signals_reach_owner (.bare .off) 2
  have htrace : bodyTrace (.bare .off) 5 nestedReturn nestedState =
      (bodyTrace (.bare .off) 5 nestedReturn nestedState).take 10 ++
        .ends (.returnValue .nowhere (some (.integer .nowhere 7))) (.returned (.integer 7))
          { nestedState with scopes := ⟨[[], [], []] :: nestedState.scopes.stack⟩ } ::
        (bodyTrace (.bare .off) 5 nestedReturn nestedState).drop 11 := rfl
  obtain ⟨hafter, hvalue⟩ := hbody _ _ _ _ _ _ _ htrace rfl
  refine ⟨⟨_, _, _, htrace, rfl, rfl, hafter⟩, hvalue, hblock _ nestedState _ _ rfl, ?_, ?_, ?_⟩
  · exact (hloop (.whileLoop .nowhere (.boolean .nowhere false) strayBreak.block) nestedState _ _ rfl rfl).1
  · exact hstatement (.continueLoop .nowhere) nestedState _ _ rfl rfl
  · exact hcall (.start "g" none []) strayBreak nestedState _ _ rfl

/-- `self.total = 5; control stop;` -/
def stoppedTotal : Body :=
  ⟨.nowhere, .mk .nowhere [
    .assign .nowhere (.field .nowhere (.self .nowhere) "total") (.integer .nowhere 5),
    .stop .nowhere]⟩

/-- The value of a body that stops need not be null: if it computes an attribute, it is what was assigned. -/
theorem stopped_value_not_null :
    ¬ ∀ host fuel b s s', inScope (execBlock (exec host fuel) b.block) s = .done .stopped s' →
      execBody (exec host fuel) b s = .done .null s' := by
  intro hnull
  have hvalue := hnull (.bare .off) 3 stoppedTotal ⟨.initial, .empty, .derive "total" "total" ⟨"A", 1⟩, #[]⟩ _ rfl
  cases hvalue

end Run

end ObjectAction
