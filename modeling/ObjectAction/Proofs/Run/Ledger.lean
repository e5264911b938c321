/-
The attribute that a body computes. In its activation the attribute of `self` is a cell that assignments fill and that
decides the result. This module has a second evaluator, in which the cell is a ledger: every assignment enters one more
value, a read of the attribute looks at the last entry, and nothing else of a step looks at the ledger or changes it.

`Mirrors n more x y` says that the step `x` does with a cell what `y` does with a ledger whose last entry the cell
holds. The evaluator mirrors the one with the ledger, so a body computes the last value that it assigned, however it
ends and whatever it calls.
-/
import ObjectAction.Proofs.Run.Congruence
import ObjectAction.Proofs.Run.Frame
import ObjectAction.Proofs.Run.Indexing
import ObjectAction.Proofs.Run.Signal

namespace ObjectAction

/-- The expression is the attribute `n` of `self`, or an index of it. -/
def Expression.isOwn (n : String) : Expression → Bool
  | .field _ (.self _) name => name = n
  | .index _ target _ => target.isOwn n
  | _ => false

/-! ## Ledgers -/

/-- The last entry of a ledger, null if it has none. -/
def latest (values : List Value) : Value := values.getLast?.getD .null

theorem latest_snoc (values : List Value) (v : Value) : latest (values ++ [v]) = v := by
  simp [latest]

/-- An activation that computes the attribute `n` of an instance and has a ledger as its cell. -/
def Activation.recording (label n : String) (r : InstanceRef) : Activation :=
  ⟨label, some r, [], some ⟨n, .array []⟩, [], []⟩

theorem Activation.withResult_withResult (a : Activation) (v w : Value) :
    (a.withResult v).withResult w = a.withResult w := by
  cases hcell : a.derived with
  | none => simp [withResult, hcell]
  | some cell => simp [withResult, hcell]

namespace RunState

/-- The cell of the state is a ledger of the attribute `n`. -/
def Records (n : String) (t : RunState) : Prop := ∃ values, t.activation.derived = some ⟨n, .array values⟩

/-- The entries of the ledger. -/
def entries (t : RunState) : List Value :=
  match t.activation.derived with
  | some ⟨_, .array values⟩ => values
  | _ => []

/-- The state whose cell holds the last entry of the ledger. -/
def settled (t : RunState) : RunState := t.withResult (latest t.entries)

/-- The ledger still has its entries, and if `more` is false it has no others. -/
structure Continues (n : String) (more : Bool) (t t' : RunState) : Prop where
  records : t'.Records n
  grows : t.entries <+: t'.entries
  same : more = false → t'.entries = t.entries

variable {n : String} {more : Bool} {t t' t'' : RunState}

theorem withResult_withResult (s : RunState) (v w : Value) : (s.withResult v).withResult w = s.withResult w := by
  unfold withResult
  rw [Activation.withResult_withResult]

/-- What is in the ledger after an entry. -/
theorem Records.entries_withResult (ht : t.Records n) (values : List Value) :
    (t.withResult (.array values)).activation.derived = some ⟨n, .array values⟩ := by
  obtain ⟨old, hcell⟩ := ht
  show t.activation.derived.map _ = _
  rw [hcell]
  rfl

theorem Records.settled_derived (ht : t.Records n) : t.settled.activation.derived = some ⟨n, latest t.entries⟩ := by
  obtain ⟨values, hcell⟩ := ht
  show t.activation.derived.map _ = _
  rw [hcell]
  rfl

theorem Records.computed_settled (ht : t.Records n) : Run.computed t.settled = latest t.entries := by
  unfold Run.computed
  rw [ht.settled_derived]
  rfl

/-- A step that leaves the cell alone leaves the ledger alone. -/
theorem Records.continues (ht : t.Records n) (hcell : t'.activation.derived = t.activation.derived) :
    t.Continues n more t' := by
  have hentries : t'.entries = t.entries := by
    unfold entries
    rw [hcell]
  constructor
  · obtain ⟨values, hvalues⟩ := ht
    exact ⟨values, hcell.trans hvalues⟩
  · rw [hentries]
  · exact fun _ => hentries

theorem Continues.trans (h : t.Continues n more t') (h' : t'.Continues n more t'') : t.Continues n more t'' := by
  constructor
  · exact h'.records
  · exact h.grows.trans h'.grows
  · exact fun hmore => (h'.same hmore).trans (h.same hmore)

/-- Every state with a cell is one with a ledger, settled. -/
theorem exists_settled {s : RunState} {v : Value} (hs : s.activation.derived = some ⟨n, v⟩) :
    ∃ t : RunState, t.Records n ∧ t.entries = [v] ∧ t.settled = s := by
  obtain ⟨p, scopes, ⟨label, receiver, arguments, derived, candidates, loops⟩, journal⟩ := s
  cases hs
  exact ⟨⟨p, scopes, ⟨label, receiver, arguments, some ⟨n, .array [v]⟩, candidates, loops⟩, journal⟩, ⟨[v], rfl⟩,
    rfl, rfl⟩

end RunState

namespace Run

variable {α β : Type} {n : String} {more : Bool}

/-! ## The evaluator that keeps a ledger -/

/-- The value with another one written at the end of a path into it. -/
def written : Value → List Nat → Value → Except Fault Value
  | _, [], v => .ok v
  | w, i :: path, v => do
    let items ← elements w
    let inner ← written (items.getD i .null) path v
    return .array (← store items i inner)

/-- Looks at the ledger. -/
def ledger : Run (List Value) := look (·.entries)

/-- Adds an entry to the ledger. -/
def enter (v : Value) : Run Unit := modify fun t => t.withResult (.array (t.entries ++ [v]))

/-- Adds the last entry once more, with a value written at the end of a path into it. -/
def enterAt (path : List Nat) (v : Value) : Run Unit := do
  let values ← ledger
  enter (← ofExcept (written (latest values) path v))

section

variable (eval : Expression → Run Value)

/-- The positions of an index of the attribute, the outermost array first. -/
def ownPath : Expression → Run (List Nat)
  | .index _ target position => do
    let path ← ownPath target
    return path ++ [← expectIndex (← eval position)]
  | _ => return []

/-- Reads the attribute, or an index of it. -/
def ownRead (e : Expression) : Run Value := do
  let path ← ownPath eval e
  let values ← ledger
  ofExcept (follow (latest values) path)

/-- Assigns the attribute, or an index of it. -/
def ownAssign (target value : Expression) : Run Signal := do
  let v ← eval value
  enterAt (← ownPath eval target) v
  return .normal

end

section

variable (host : Host) (n : String)

/-- Evaluates an expression of a body that computes `n`. What it calls is run as always. -/
def ledgerEval : Nat → Expression → Run Value
  | 0, _ => exhausted
  | fuel + 1, e =>
    recover (if e.isOwn n then ownRead (ledgerEval fuel) e
      else evalForm host (ledgerEval fuel) (activate host fuel) e) isPopulationFault fun f => do
        report e.extent.start.line f
        return .null

/-- Executes a statement, and enters the value if it assigns the attribute. -/
def ledgerForm (fuel : Nat) (eval : Expression → Run Value) (exec : Statement → Run Signal) : Statement → Run Signal
  | .assign extent target value =>
    if target.isOwn n then ownAssign eval target value
    else execForm host fuel eval exec (activate host fuel) (.assign extent target value)
  | st => execForm host fuel eval exec (activate host fuel) st

/-- Executes a statement of a body that computes `n`. -/
def ledgerExec : Nat → Statement → Run Signal
  | 0, _ => exhausted
  | fuel + 1, st =>
    recover (ledgerForm host n fuel (ledgerEval host n fuel) (ledgerExec fuel) st) Fault.isRecoverable
      fun f => do
        report st.extent.start.line f
        return .normal

end

/-- Runs a body that keeps a ledger. Its result is what it returns, or else the last entry. -/
def ledgerBody (exec : Statement → Run Signal) (b : Body) : Run Value := do
  let signal ← inScope (execBlock exec b.block)
  let values ← ledger
  match signal with
  | .returned .null => return latest values
  | .returned v => return v
  | _ => return latest values

/-! ## Steps that leave the cell alone -/

/-- The step does not look at the result of the cell, and leaves the cell as it is. -/
structure Aside (x : Run α) : Prop where
  result : ∀ s v, x (s.withResult v) = (x s).mapState (·.withResult v)
  kept : ∀ s, (x s).Leaves anyFault fun s' => s'.activation.derived = s.activation.derived

/-- The step `x` does with a cell what `y` does with a ledger, of which `y` keeps the entries. -/
structure Mirrors (n : String) (more : Bool) ⦃α : Type⦄ (x y : Run α) : Prop where
  outcome : ∀ t : RunState, t.Records n → x t.settled = (y t).mapState RunState.settled
  continues : ∀ t : RunState, t.Records n → (y t).Leaves anyFault (t.Continues n more)

theorem Aside.mirrors {x : Run α} (h : Aside x) : Mirrors n more x x := by
  constructor
  · intro t ht
    refine (h.result t _).trans (Outcome.mapState_congr (h.kept t) fun t' hcell => ?_)
    unfold RunState.settled RunState.entries
    rw [hcell]
  · exact fun t ht => (h.kept t).mono fun t' hcell => ht.continues hcell

theorem aside_pure (a : α) : Aside (Pure.pure a : Run α) := ⟨fun _ _ => rfl, fun _ => rfl⟩

theorem aside_exhausted : Aside (exhausted : Run α) := ⟨fun _ _ => rfl, fun _ => trivial⟩

theorem aside_fail (f : Fault) : Aside (fail f : Run α) := ⟨fun _ _ => rfl, fun _ => ⟨rfl, rfl⟩⟩

theorem aside_look {f : RunState → α} (h : ∀ s v, f (s.withResult v) = f s) : Aside (look f) := by
  constructor
  · intro s v
    unfold look
    rw [h]
    rfl
  · exact fun _ => rfl

theorem aside_modify {f : RunState → RunState} (hresult : ∀ s v, f (s.withResult v) = (f s).withResult v)
    (hkept : ∀ s, (f s).activation.derived = s.activation.derived) : Aside (modify f) := by
  constructor
  · intro s v
    unfold modify
    rw [hresult]
    rfl
  · exact hkept

theorem aside_ofExcept (r : Except Fault α) : Aside (ofExcept r) := by
  cases r with
  | ok a => exact aside_pure a
  | error f => exact aside_fail f

theorem aside_perform (f : Population → Except PopulationError (α × Population)) : Aside (perform f) := by
  constructor
  · intro s v
    simp only [perform, RunState.withResult]
    cases f s.population with
    | ok | error => rfl
  · intro s
    unfold perform
    cases f s.population with
    | ok => exact rfl
    | error => exact ⟨rfl, rfl⟩

theorem aside_ask (f : Population → Except PopulationError α) : Aside (ask f) := by
  constructor
  · intro s v
    simp only [ask, RunState.withResult]
    cases f s.population with
    | ok | error => rfl
  · intro s
    unfold ask
    cases f s.population with
    | ok => exact rfl
    | error => exact ⟨rfl, rfl⟩

theorem aside_changeScopes (f : Scopes → Except ScopeError (α × Scopes)) : Aside (changeScopes f) := by
  constructor
  · intro s v
    simp only [changeScopes, RunState.withResult]
    cases f s.scopes with
    | ok | error => rfl
  · intro s
    unfold changeScopes
    cases f s.scopes with
    | ok => exact rfl
    | error => exact ⟨rfl, rfl⟩

theorem aside_leaveScopeAfter (f : Fault) : Aside (leaveScopeAfter f : Run α) := by
  constructor
  · intro s v
    simp only [leaveScopeAfter, RunState.withResult]
    cases s.scopes.leaveScope with
    | ok | error => rfl
  · intro s
    unfold leaveScopeAfter
    cases s.scopes.leaveScope with
    | ok | error => exact ⟨rfl, rfl⟩

theorem aside_note (notice : Notice) : Aside (note notice) := aside_modify (fun _ _ => rfl) fun _ => rfl

theorem aside_setPass (index : Nat) : Aside (setPass index) := by
  refine aside_modify (fun s v => ?_) fun s => ?_
  · obtain ⟨p, scopes, ⟨label, receiver, arguments, derived, candidates, loops⟩, journal⟩ := s
    cases loops with
    | nil | cons => rfl
  · split <;> rfl

/-- Another activation has a cell of its own, and the one of the caller comes back. -/
theorem aside_within (a : Activation) (x : Run α) : Aside (within a x) := by
  constructor
  · intro s v
    show between _ _ x (s.withResult v) = _
    unfold within between
    dsimp only [RunState.withResult]
    cases x { s with activation := a } with
    | done | failed | exhausted => rfl
  · intro s
    unfold within between
    cases x { s with activation := a } with
    | done => exact rfl
    | failed => exact ⟨rfl, rfl⟩
    | exhausted => trivial

theorem aside_activate (host : Host) (fuel : Nat) (a : Activation) (b : Body) :
    Aside (activate host fuel a b) := by
  cases fuel with
  | zero => exact aside_exhausted
  | succ fuel => exact aside_within a _

theorem mirrors_activate (host : Host) (fuel : Nat) (a : Activation) (b : Body) :
    Mirrors n more (activate host fuel a b) (activate host fuel a b) :=
  (aside_activate host fuel a b).mirrors

/-! ## Sequences -/

/-- What comes after a step need only be looked at for results that the step has. -/
theorem Mirrors.andThen {x y : Run α} {done done' : α → Run β} {failed failed' : Fault → Run β}
    (hx : Mirrors n more x y)
    (hdone : ∀ a, (∃ t t' : RunState, t.Records n ∧ y t = .done a t') → Mirrors n more (done a) (done' a))
    (hfailed : ∀ f, Mirrors n more (failed f) (failed' f)) :
    Mirrors n more (x.andThen done failed) (y.andThen done' failed') := by
  constructor
  · intro t ht
    have hcontinues := hx.continues t ht
    unfold Run.andThen
    rw [hx.outcome t ht]
    cases hy : y t with
    | done a t' =>
      rw [hy] at hcontinues
      exact (hdone a ⟨t, t', ht, hy⟩).outcome t' hcontinues.records
    | failed f t' =>
      rw [hy] at hcontinues
      exact (hfailed f).outcome t' hcontinues.2.records
    | exhausted => rfl
  · intro t ht
    have hcontinues := hx.continues t ht
    unfold Run.andThen
    cases hy : y t with
    | done a t' =>
      rw [hy] at hcontinues
      exact ((hdone a ⟨t, t', ht, hy⟩).continues t' hcontinues.records).mono fun _ => hcontinues.trans
    | failed f t' =>
      rw [hy] at hcontinues
      exact ((hfailed f).continues t' hcontinues.2.records).mono fun _ => hcontinues.2.trans
    | exhausted => trivial

theorem Mirrors.bind_of {x y : Run α} {f g : α → Run β} (hx : Mirrors n more x y)
    (hf : ∀ a, (∃ t t' : RunState, t.Records n ∧ y t = .done a t') → Mirrors n more (f a) (g a)) :
    Mirrors n more (x >>= f) (y >>= g) := by
  rw [bind_eq_andThen, bind_eq_andThen]
  exact hx.andThen hf fun f => (aside_fail f).mirrors

theorem Mirrors.bind {x y : Run α} {f g : α → Run β} (hx : Mirrors n more x y)
    (hf : ∀ a, Mirrors n more (f a) (g a)) : Mirrors n more (x >>= f) (y >>= g) :=
  hx.bind_of fun a _ => hf a

theorem mirrors_sequential : Sequential (Mirrors n more) where
  pure a := (aside_pure a).mirrors
  bind := Mirrors.bind

/-- A step that adds no entry is one that may add some. -/
theorem Mirrors.mono {x y : Run α} (h : Mirrors n false x y) : Mirrors n more x y := by
  constructor
  · exact h.outcome
  · intro t ht
    refine (h.continues t ht).mono fun t' hcontinues => ⟨hcontinues.records, hcontinues.grows, fun _ => ?_⟩
    exact hcontinues.same rfl

theorem mirrors_report (line : Nat) (f : Fault) : Mirrors n more (report line f) (report line f) :=
  .bind (aside_look fun _ _ => rfl).mirrors fun _ => (aside_note _).mirrors

/-- A node whose faults are reported if they satisfy `p`. -/
theorem Mirrors.reporting {x y : Run α} (hx : Mirrors n more x y) (p : Fault → Bool) (line : Nat) (a : α) :
    Mirrors n more (recover x p fun f => do report line f; return a)
      (recover y p fun f => do report line f; return a) := by
  rw [recover_eq_andThen, recover_eq_andThen]
  refine hx.andThen (fun a _ => (aside_pure a).mirrors) fun f => ?_
  split
  · exact .bind (mirrors_report line f) fun _ => (aside_pure a).mirrors
  · exact (aside_fail f).mirrors

theorem mirrors_performLog (verbosity : Verbosity) (op : LogOperation) (arguments : Arguments) :
    Mirrors n more (performLog verbosity op arguments) (performLog verbosity op arguments) := by
  refine .bind (aside_ask _).mirrors fun line => ?_
  cases line with
  | some text => exact .bind (aside_note _).mirrors fun _ => (aside_pure _).mirrors
  | none => exact (aside_pure _).mirrors

/-! ## Steps inside something that is left again -/

/-- The activation is changed apart from its cell. -/
structure BesideCell (g : Activation → Activation) : Prop where
  result : ∀ a v, g (a.withResult v) = (g a).withResult v
  kept : ∀ a, (g a).derived = a.derived

section

variable {x y : Run α} (hx : Mirrors n more x y)

include hx

theorem Mirrors.between {enter leave : Activation → Activation} (henter : BesideCell enter)
    (hleave : BesideCell leave) : Mirrors n more (between enter leave x) (between enter leave y) := by
  have hmodify : ∀ {g : Activation → Activation}, BesideCell g →
      Aside (Run.modify fun s => { s with activation := g s.activation }) := by
    intro g hg
    refine aside_modify (fun s v => ?_) fun s => hg.kept _
    show _ = { s with activation := (g s.activation).withResult v }
    rw [← hg.result]
    rfl
  rw [between_eq_andThen, between_eq_andThen]
  refine .bind (hmodify henter).mirrors fun _ => hx.andThen (fun a _ => ?_) fun f => ?_
  · exact .bind (hmodify hleave).mirrors fun _ => (aside_pure a).mirrors
  · exact .bind (hmodify hleave).mirrors fun _ => (aside_fail f).mirrors

theorem Mirrors.inBlock : Mirrors n more (inBlock x) (inBlock y) := by
  rw [inBlock_eq_andThen, inBlock_eq_andThen]
  refine .bind (aside_changeScopes _).mirrors fun _ => hx.andThen (fun a _ => ?_) fun f => ?_
  · exact .bind (aside_changeScopes _).mirrors fun _ => (aside_pure a).mirrors
  · exact .bind (aside_changeScopes _).mirrors fun _ => (aside_fail f).mirrors

theorem Mirrors.inScope : Mirrors n more (inScope x) (inScope y) := by
  have hopen : Aside (modify fun s => { s with scopes := s.scopes.enterScope }) :=
    aside_modify (fun _ _ => rfl) fun _ => rfl
  rw [inScope_eq_andThen, inScope_eq_andThen]
  refine .bind hopen.mirrors fun _ => hx.andThen (fun a _ => ?_) fun f => ?_
  · exact .bind (aside_changeScopes _).mirrors fun _ => (aside_pure a).mirrors
  · exact (aside_leaveScopeAfter f).mirrors

end

theorem mirrors_readVariable (name : String) : Mirrors n more (readVariable name) (readVariable name) :=
  .bind (aside_look fun _ _ => rfl).mirrors fun _ => (aside_ask _).mirrors

theorem mirrors_updateArray (name : String) (g : List Value → Except Fault (List Value)) (h : List Value → α) :
    Mirrors n more (updateArray name g h) (updateArray name g h) := by
  have hwrite : ∀ slot items, Aside (writeArray slot items) :=
    fun slot items => aside_modify (fun _ _ => rfl) fun _ => rfl
  have hslot : Mirrors n more (arraySlot name) (arraySlot name) := by
    refine .bind (aside_changeScopes _).mirrors fun slot => .bind (aside_look fun _ _ => rfl).mirrors fun v => ?_
    refine .bind (aside_ofExcept _).mirrors fun items => ?_
    exact .bind (hwrite slot items).mirrors fun _ => (aside_pure _).mirrors
  refine hslot.bind fun (slot, items) => .bind (aside_ofExcept _).mirrors fun items' => ?_
  exact .bind (hwrite slot items').mirrors fun _ => (aside_pure _).mirrors

theorem Mirrors.loop {x y : Run Signal} (hx : Mirrors n more x y) (c : LoopCursor) (item : String)
    (refs : List InstanceRef) :
    Mirrors n more (withLoop c (passes item x 0 refs)) (withLoop c (passes item y 0 refs)) := by
  have hpasses : Mirrors n more (passes item x 0 refs) (passes item y 0 refs) :=
    mirrors_sequential.passes (fun index => (aside_setPass index).mirrors)
      (fun _ _ => (aside_changeScopes _).mirrors) hx item 0 refs
  exact hpasses.between ⟨fun _ _ => rfl, fun _ => rfl⟩ ⟨fun _ _ => rfl, fun _ => rfl⟩

/-- The evaluator uses the cell only for the attribute that is computed. -/
theorem mirrors_congruent (n : String) (more : Bool) : Congruent (Mirrors n more) where
  toSequential := mirrors_sequential
  exhausted := aside_exhausted.mirrors
  fail _ := (aside_fail _).mirrors
  look hf := (aside_look fun s v => hf _ _ (Activation.withResult_withResult s.activation v .null)).mirrors
  ask f := (aside_ask f).mirrors
  perform f := (aside_perform f).mirrors
  install _ _ := (aside_changeScopes _).mirrors
  readVariable := mirrors_readVariable
  updateArray name _ _ h := mirrors_updateArray name _ h
  withCandidate hx _ := hx.between ⟨fun _ _ => rfl, fun _ => rfl⟩ ⟨fun _ _ => rfl, fun _ => rfl⟩
  inBlock := Mirrors.inBlock
  loop := Mirrors.loop

theorem mirrors_host (host : Host) : HostsRelated (Mirrors n more) host host :=
  ⟨mirrors_performLog host.verbosity, rfl⟩

theorem mirrors_computeDerived (host : Host) (fuel : Nat) (action : Action) (r : InstanceRef)
    (name : String) :
    Mirrors n more (computeDerived host (activate host fuel) action r name)
      (computeDerived host (activate host fuel) action r name) :=
  (mirrors_congruent n more).computeDerived (mirrors_host host) (mirrors_activate host fuel) action r name

/-! ## The attribute itself -/

theorem bind_bind {γ : Type} (x : Run α) (f : α → Run β) (g : β → Run γ) :
    (x >>= f) >>= g = x >>= fun a => f a >>= g := by
  funext s
  show Run.bind (Run.bind x f) g s = Run.bind x (fun a => Run.bind (f a) g) s
  unfold Run.bind
  cases x s with
  | done | failed | exhausted => rfl

/-- To write an index of what is at the end of a path is to write the array there. -/
theorem written_snoc (w : Value) (path : List Nat) (i : Nat) (v : Value) :
    written w (path ++ [i]) v = (do
      let items ← elements (← follow w path)
      written w path (.array (← store items i v))) := by
  induction path generalizing w with
  | nil => rfl
  | cons j path ih =>
    show (elements w >>= fun items => written (items.getD j .null) (path ++ [i]) v >>= _) =
      (elements w >>= fun items => follow (items.getD j .null) path) >>= _
    cases hitems : elements w with
    | error f => rfl
    | ok items =>
      show (written (items.getD j .null) (path ++ [i]) v >>= _) = follow (items.getD j .null) path >>= _
      rw [ih]
      simp only [bind_assoc]
      refine congrArg _ (funext fun u => congrArg _ (funext fun inner => congrArg _ (funext fun inner' => ?_)))
      show _ = elements w >>= _
      rw [hitems]
      rfl

section

variable (derive : Action → InstanceRef → String → Run Value)

/-- To write an index of the attribute is to write the attribute. -/
theorem set_derived_along_eq (s : RunState) (path : List Nat) (v : Value) :
    set derive (Place.derived.along path) v s =
      (ofExcept (written (computed s) path v) >>= fun w => modify (·.withResult w)) s := by
  induction path using List.reverseRecOn generalizing v with
  | nil => rfl
  | append_singleton p i ih =>
    rw [Place.along_snoc, set_index derive (Place.derived_along_ne_var p), written_snoc]
    have hget := get_derived_along derive s p
    cases hfollow : follow (computed s) p with
    | error f =>
      rw [hfollow] at hget
      exact bind_failed hget
    | ok w =>
      rw [hfollow] at hget
      rw [bind_done hget]
      show (ofExcept (elements w) >>= _) s = (ofExcept (elements w >>= _) >>= _) s
      cases elements w with
      | error f => rfl
      | ok items =>
        show (ofExcept (store items i v) >>= _) s = (ofExcept (store items i v >>= _) >>= _) s
        cases store items i v with
        | error f => rfl
        | ok items' => exact ih (.array items')

end

section

variable {eval eval' : Expression → Run Value}

theorem place_own {s : RunState} {w : Value} (hs : s.activation.derived = some ⟨n, w⟩) (extent extent' : Extent) :
    place eval (.field extent (.self extent') n) s = .done .derived s := by
  have hcomputed : isComputed (.self extent') n s = .done true s := by
    show Outcome.done (s.activation.derived.any (·.name = n)) s = _
    rw [hs]
    simp
  exact bind_done hcomputed

/-- Where the attribute is named, a place is read or written at the end of a path into the cell. -/
theorem mirrors_own {e : Expression} (he : e.isOwn n = true) (hE : ∀ e, Mirrors n more (eval e) (eval' e))
    {f : Place → Run α} {g : List Nat → Run α}
    (hfg : ∀ path, Mirrors n more (f (Place.derived.along path)) (g path)) :
    Mirrors n more (place eval e >>= f) (ownPath eval' e >>= g) := by
  fun_induction Expression.isOwn n e generalizing f g with
  | case1 extent extent' name =>
    obtain rfl : name = n := of_decide_eq_true he
    constructor
    · intro t ht
      rw [bind_done (place_own ht.settled_derived extent extent')]
      exact (hfg []).outcome t ht
    · exact (hfg []).continues
  | case2 extent target position ih =>
    show Mirrors n more ((place eval target >>= _) >>= f) ((ownPath eval' target >>= _) >>= g)
    -- the position is evaluated once the target has its place, so it belongs to what comes after the target
    rw [bind_bind, bind_bind]
    refine ih he fun path => ?_
    rw [bind_bind, bind_bind]
    refine (hE position).bind fun v => ?_
    rw [bind_bind, bind_bind]
    refine ((mirrors_congruent n more).expectIndex v).bind fun i => ?_
    have hlast := hfg (path ++ [i])
    rw [Place.along_snoc] at hlast
    exact hlast
  | case3 => cases he

/-- Where another expression is read or written, its place is not the cell. -/
theorem not_isComputed_of_place {e : Expression} (he : e.isOwn n = false) {t t' : RunState} (ht : t.Records n)
    {p : Place} (hp : place eval e t = .done p t') : ¬ p.isComputed = true := by
  fun_induction Run.place eval e generalizing p t' with
  | case1 extent name =>
    cases hp
    exact Bool.false_ne_true
  | case2 extent target name =>
    obtain ⟨own, t₁, hown, hp⟩ := done_of_bind hp
    cases own with
    | false =>
      obtain ⟨r, t₂, -, hp⟩ := done_of_bind hp
      cases hp
      exact Bool.false_ne_true
    | true =>
      -- only the attribute that the body computes is found in the cell
      exfalso
      obtain ⟨values, hcell⟩ := ht
      cases target with
      | self extent' =>
        have hany : t.activation.derived.any (·.name = name) = true := by
          injection hown
        rw [hcell] at hany
        have hname : name = n := (of_decide_eq_true hany).symm
        rw [Expression.isOwn, hname] at he
        simp at he
      | _ => cases hown
  | case3 extent target position ih =>
    obtain ⟨base, t₁, hbase, hp⟩ := done_of_bind hp
    obtain ⟨v, t₂, -, hp⟩ := done_of_bind hp
    obtain ⟨i, t₃, -, hp⟩ := done_of_bind hp
    cases hp
    show ¬ base.isComputed = true
    exact ih he hbase
  | case4 e hvar hfield hindex =>
    obtain ⟨v, t₁, -, hp⟩ := done_of_bind hp
    cases hp
    exact Bool.false_ne_true

theorem mirrors_ownRead {derive : Action → InstanceRef → String → Run Value} {e : Expression}
    (he : e.isOwn n = true) (hE : ∀ e, Mirrors n more (eval e) (eval' e)) :
    Mirrors n more (do get derive (← place eval e)) (ownRead eval' e) := by
  refine mirrors_own he hE fun path => ?_
  have hread : ∀ r : Except Fault Value, Mirrors n more (ofExcept r) (ofExcept r) := fun r => (aside_ofExcept r).mirrors
  constructor
  · intro t ht
    rw [get_derived_along, ht.computed_settled]
    exact (hread _).outcome t ht
  · intro t ht
    exact (hread (follow (latest t.entries) path)).continues t ht

theorem mirrors_enter (w : Value) : Mirrors n true (modify (·.withResult w)) (enter w) := by
  have hentries : ∀ t : RunState, t.Records n →
      (t.withResult (.array (t.entries ++ [w]))).entries = t.entries ++ [w] := by
    intro t ht
    show RunState.entries _ = _
    rw [RunState.entries, ht.entries_withResult]
  constructor
  · intro t ht
    show Outcome.done () (t.settled.withResult w) = .done () (t.withResult _).settled
    unfold RunState.settled
    rw [hentries t ht, latest_snoc, RunState.withResult_withResult, RunState.withResult_withResult]
  · intro t ht
    refine ⟨⟨_, ht.entries_withResult _⟩, ?_, nofun⟩
    rw [hentries t ht]
    exact List.prefix_append _ _

theorem mirrors_enterAt (derive : Action → InstanceRef → String → Run Value) (path : List Nat) (v : Value) :
    Mirrors n true (set derive (Place.derived.along path) v) (enterAt path v) := by
  have hwrite : ∀ r : Except Fault Value,
      Mirrors n true (ofExcept r >>= fun w => modify (·.withResult w)) (ofExcept r >>= enter) :=
    fun r => (aside_ofExcept r).mirrors.bind mirrors_enter
  constructor
  · intro t ht
    rw [set_derived_along_eq, ht.computed_settled]
    exact (hwrite _).outcome t ht
  · intro t ht
    exact (hwrite (written (latest t.entries) path v)).continues t ht

end

/-! ## Runs -/

section

variable {host : Host} {fuel : Nat} {eval eval' : Expression → Run Value}
  (hE : ∀ e, Mirrors n false (eval e) (eval' e))

include hE

theorem mirrors_evalForm (e : Expression) :
    Mirrors n false (evalForm host eval (activate host fuel) e)
      (if e.isOwn n then ownRead eval' e else evalForm host eval' (activate host fuel) e) := by
  split
  case isTrue he =>
    have hform : evalForm host eval (activate host fuel) e =
        (do get (computeDerived host (activate host fuel)) (← place eval e)) := by
      cases e with
      | field | index => rfl
      | _ => cases he
    rw [hform]
    exact mirrors_ownRead he hE
  case isFalse he =>
    have hcongruent := mirrors_congruent n false
    refine hcongruent.evalForm (mirrors_host host) (mirrors_activate host fuel) hE e fun _ => ?_
    refine (hcongruent.place hE e).bind_of ?_
    rintro p ⟨t, t', ht, hp⟩
    refine hcongruent.get (mirrors_computeDerived host fuel) p fun hcomputed => ?_
    exact absurd hcomputed (not_isComputed_of_place (Bool.eq_false_iff.mpr he) ht hp)

variable {exec exec' : Statement → Run Signal} (hX : ∀ st, Mirrors n true (exec st) (exec' st))

include hX

theorem mirrors_execForm (st : Statement) :
    Mirrors n true (execForm host fuel eval exec (activate host fuel) st)
      (ledgerForm host n fuel eval' exec' st) := by
  have hcongruent := mirrors_congruent n true
  have hE' : ∀ e, Mirrors n true (eval e) (eval' e) := fun e => (hE e).mono
  -- all but the assignments to the attribute are executed by the same form
  have hother : ∀ st', (∀ extent target value, st' = .assign extent target value → target.isOwn n = false) →
      Mirrors n true (execForm host fuel eval exec (activate host fuel) st')
        (execForm host fuel eval' exec' (activate host fuel) st') := by
    intro st' hown
    refine hcongruent.execForm fuel hE' hX st' ?_
    rintro extent target value rfl
    refine (hE' value).bind fun v => (hcongruent.place hE' target).bind_of ?_
    rintro p ⟨t, t', ht, hp⟩
    have hplace := not_isComputed_of_place (hown extent target value rfl) ht hp
    refine .bind ?_ fun _ => (aside_pure _).mirrors
    exact hcongruent.set (mirrors_computeDerived host fuel) p v (absurd · hplace) (absurd · hplace)
  unfold ledgerForm
  split
  case h_1 extent target value =>
    split
    case isTrue hown =>
      refine (hE' value).bind fun v => ?_
      show Mirrors n true (place eval target >>= _) (ownPath eval' target >>= _)
      refine mirrors_own hown hE' fun path => ?_
      exact (mirrors_enterAt _ path v).bind fun _ => (aside_pure _).mirrors
    case isFalse hown =>
      refine hother _ fun _ _ _ heq => ?_
      cases heq
      exact Bool.eq_false_iff.mpr hown
  case h_2 hassign =>
    exact hother st fun extent target value heq => absurd heq (hassign extent target value)

end

/-- The evaluator does with a cell what it does with a ledger. No expression adds an entry. -/
theorem mirrors_run (host : Host) (n : String) (fuel : Nat) :
    (∀ e, Mirrors n false (eval host fuel e) (ledgerEval host n fuel e)) ∧
      ∀ st, Mirrors n true (exec host fuel st) (ledgerExec host n fuel st) := by
  induction fuel with
  | zero =>
    constructor
    · exact fun e => aside_exhausted.mirrors
    · exact fun st => aside_exhausted.mirrors
  | succ fuel ih =>
    obtain ⟨hE, hX⟩ := ih
    constructor
    · exact fun e => (mirrors_evalForm hE e).reporting _ _ _
    · exact fun st => (mirrors_execForm hE hX st).reporting _ _ _

theorem mirrors_execBody {exec exec' : Statement → Run Signal} (hX : ∀ st, Mirrors n true (exec st) (exec' st))
    (b : Body) : Mirrors n true (execBody exec b) (ledgerBody exec' b) := by
  refine ((mirrors_congruent n true).execBlock hX b.block).inScope.bind fun signal => ?_
  constructor
  · intro t ht
    have hcell : look (·.activation.derived) t.settled = .done (some ⟨n, latest t.entries⟩) t.settled :=
      congrArg (Outcome.done · t.settled) ht.settled_derived
    refine (bind_done hcell).trans ?_
    cases signal with
    | returned v => cases v <;> rfl
    | normal | broke | continued | stopped => rfl
  · intro t ht
    cases signal with
    | returned v => cases v <;> exact ht.continues rfl
    | normal | broke | continued | stopped => exact ht.continues rfl

/-- In another activation, a ledger that starts empty does for a cell that starts with null. -/
theorem Mirrors.within {x y : Run α} (hx : Mirrors n more x y) (label : String) (r : InstanceRef) :
    within (.derive label n r) x = within (.recording label n r) y := by
  funext s
  have houtcome : x { s with activation := .derive label n r } =
      (y { s with activation := .recording label n r }).mapState RunState.settled :=
    hx.outcome { s with activation := .recording label n r } ⟨[], rfl⟩
  unfold Run.within Run.between
  dsimp only
  rw [houtcome]
  cases y { s with activation := .recording label n r } with
  | done | failed | exhausted => rfl

theorem Mirrors.start {x y : Run Value} (hx : Mirrors n more x y) (p : Population) (label : String)
    (r : InstanceRef) : start p (.derive label n r) x = start p (.recording label n r) y := by
  have houtcome : x ⟨p, .empty, .derive label n r, #[]⟩ =
      (y ⟨p, .empty, .recording label n r, #[]⟩).mapState RunState.settled :=
    hx.outcome ⟨p, .empty, .recording label n r, #[]⟩ ⟨[], rfl⟩
  unfold Run.start
  rw [houtcome]
  cases y ⟨p, .empty, .recording label n r, #[]⟩ with
  | done | failed | exhausted => rfl

section

variable {host : Host} {fuel : Nat} {s s' : RunState} {v w : Value} (hs : s.activation.derived = some ⟨n, w⟩)

include hs

/-- An expression leaves the cell alone, whatever it calls. -/
theorem eval_keeps_cell (e : Expression) :
    (eval host fuel e s).Leaves anyFault fun s' => s'.activation.derived = some ⟨n, w⟩ := by
  -- the cell is taken for the only entry of a ledger
  obtain ⟨t, ht, hentries, rfl⟩ := RunState.exists_settled hs
  have hmirrors := (mirrors_run host n fuel).1 e
  rw [hmirrors.outcome t ht]
  refine Outcome.leaves_mapState ((hmirrors.continues t ht).mono fun t' hcontinues => ?_)
  rw [hcontinues.records.settled_derived, hcontinues.same rfl, hentries]
  rfl

theorem eval_own (extent extent' : Extent) :
    eval host (fuel + 1) (.field extent (.self extent') n) s = .done w s := by
  have hform : evalForm host (eval host fuel) (activate host fuel) (.field extent (.self extent') n) s =
      .done w s := by
    refine (bind_done (place_own hs extent extent')).trans ?_
    show Outcome.done ((s.activation.derived.map (·.result)).getD .null) s = _
    rw [hs]
    rfl
  show evalStep _ _ _ _ s = _
  unfold evalStep recover
  rw [hform]

theorem exec_assign_own {value : Expression} (hvalue : eval host fuel value s = .done v s')
    (extent extent' extent'' : Extent) :
    exec host (fuel + 1) (.assign extent (.field extent' (.self extent'') n) value) s =
      .done .normal (s'.withResult v) := by
  have hcell : s'.activation.derived = some ⟨n, w⟩ := by
    have hleaves : (eval host fuel value s).Leaves anyFault _ := eval_keeps_cell hs value
    rw [hvalue] at hleaves
    exact hleaves
  have hform : execForm host fuel (eval host fuel) (exec host fuel) (activate host fuel)
      (.assign extent (.field extent' (.self extent'') n) value) s = .done .normal (s'.withResult v) := by
    refine (bind_done hvalue).trans ?_
    exact bind_done (place_own hcell extent' extent'')
  show execStep _ _ _ _ _ _ s = _
  unfold execStep recover
  rw [hform]

end

/-- A body that computes an attribute does with the cell of its activation what the evaluator with the ledger does:
wherever the attribute of `self` is assigned, a value is entered and the population stays as it is, where it is read,
the last entry is read, and the result is the last entry unless another value than null is returned. No expression adds
an entry, whatever it calls or computes, and no statement removes one. -/
theorem computes_latest (host : Host) (label n : String) (r : InstanceRef) (b : Body) :
    (∀ fuel, activate host (fuel + 1) (.derive label n r) b =
      within (.recording label n r) (ledgerBody (ledgerExec host n fuel) b)) ∧
    (∀ p, runDerivedAttribute host p label b n r =
      start p (.recording label n r) (ledgerBody (ledgerExec host n plenty) b)) ∧
    (∀ (fuel : Nat) (t : RunState), t.Records n →
      (∀ e, (ledgerEval host n fuel e t).Leaves anyFault (t.Continues n false)) ∧
      ∀ st, (ledgerExec host n fuel st t).Leaves anyFault (t.Continues n true)) ∧
    ∀ (fuel : Nat) (s : RunState) (w : Value), s.activation.derived = some ⟨n, w⟩ →
      (∀ extent extent', eval host (fuel + 1) (.field extent (.self extent') n) s = .done w s) ∧
      (∀ e, (eval host fuel e s).Leaves anyFault fun s' => s'.activation.derived = some ⟨n, w⟩) ∧
      ∀ extent extent' extent'' value v s', eval host fuel value s = .done v s' →
        exec host (fuel + 1) (.assign extent (.field extent' (.self extent'') n) value) s =
          .done .normal (s'.withResult v) := by
  have hbody : ∀ fuel, Mirrors n true (execBody (exec host fuel) b) (ledgerBody (ledgerExec host n fuel) b) :=
    fun fuel => mirrors_execBody (mirrors_run host n fuel).2 b
  refine ⟨fun fuel => (hbody fuel).within label r, fun p => ?_, fun fuel t ht => ⟨fun e => ?_, fun st => ?_⟩, ?_⟩
  · have hrestores := restores_execBody (disciplined_exec host plenty) b ⟨p, .empty, .derive label n r, #[]⟩
    exact (start_settle ⟨rfl, hrestores.leaves⟩ _).trans ((hbody plenty).start p label r)
  · exact ((mirrors_run host n fuel).1 e).continues t ht
  · exact ((mirrors_run host n fuel).2 st).continues t ht
  · intro fuel s w hs
    refine ⟨eval_own hs, eval_keeps_cell hs, fun extent extent' extent'' value v s' hvalue => ?_⟩
    exact exec_assign_own hs hvalue extent extent' extent''

/-- `self.name = value;` -/
def assignOwn (name : String) (value : Expression) : Statement :=
  .assign .nowhere (.field .nowhere (.self .nowhere) name) value

/-- `select any b from instances of B; if (empty b) create object instance b of B; self.total = 5; x = self;
y = x.total; else self.total = 7; end if; control stop;` -/
def nestedTotal : Body :=
  ⟨.nowhere, .mk .nowhere [
    .selectFrom .nowhere .any "b" "B" none,
    .branch .nowhere (.unary .nowhere .empty (.var .nowhere "b"))
      (.mk .nowhere [
        .create .nowhere (some "b") "B",
        assignOwn "total" (.integer .nowhere 5),
        .assign .nowhere (.var .nowhere "x") (.self .nowhere),
        .assign .nowhere (.var .nowhere "y") (.field .nowhere (.var .nowhere "x") "total")])
      [] (some (.mk .nowhere [assignOwn "total" (.integer .nowhere 7)])),
    .stop .nowhere]⟩

/-- An activation in a population with one instance, whose total is computed by the body. -/
def withTotal (a : Activation) : RunState where
  population := { Population.initial with
    classes := [("A", ⟨[], [("total", .written "A.total" nestedTotal)], [], []⟩), ("B", ⟨[], [], [], []⟩)]
    instances := [⟨"A", 1, []⟩]
    nextId := 2 }
  scopes := ⟨[[[]]]⟩
  activation := a
  journal := #[]

/-- The body reads the same attribute of the same instance while it computes it. That run of the body assigns another
value to the attribute, which goes to another ledger. -/
theorem computes_latest_nested :
    (within (.recording "A.total" "total" ⟨"A", 1⟩) (ledgerBody (ledgerExec (.bare .off) "total" 9) nestedTotal)
      (withTotal (.start "f" none []))).result = some (.ok (.integer 5)) ∧
    (ledgerExec (.bare .off) "total" 2 (assignOwn "total" (.integer .nowhere 5))
      (withTotal (.recording "A.total" "total" ⟨"A", 1⟩))).Leaves anyFault
        ((withTotal (.recording "A.total" "total" ⟨"A", 1⟩)).Continues "total" true) ∧
    eval (.bare .off) 2 (.field .nowhere (.self .nowhere) "total") (withTotal (.derive "A.total" "total" ⟨"A", 1⟩)) =
      .done .null (withTotal (.derive "A.total" "total" ⟨"A", 1⟩)) ∧
    exec (.bare .off) 2 (assignOwn "total" (.integer .nowhere 5)) (withTotal (.derive "A.total" "total" ⟨"A", 1⟩)) =
      .done .normal ((withTotal (.derive "A.total" "total" ⟨"A", 1⟩)).withResult (.integer 5)) := by
  obtain ⟨hnested, -, hledger, hcell⟩ := computes_latest (.bare .off) "A.total" "total" ⟨"A", 1⟩ nestedTotal
  obtain ⟨hread, -, hassign⟩ := hcell 1 (withTotal (.derive "A.total" "total" ⟨"A", 1⟩)) .null rfl
  refine ⟨?_, (hledger 2 _ ⟨[], rfl⟩).2 _, hread .nowhere .nowhere, hassign .nowhere .nowhere .nowhere _ _ _ rfl⟩
  rw [← hnested]
  cbv

end Run

end ObjectAction
