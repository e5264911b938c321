/-
Laws that runs uphold. A law says what it asks of values, of populations and of the bodies that run, and that the
operations on values and populations respect this. What a step does under a law is said of its record: every moment
fits the law, and the moments lead to the state that is left. So the faults that the journal has more than before are
those of the record, in order.
-/
import ObjectAction.Proofs.Population.Navigation
import ObjectAction.Proofs.Run.Record

namespace ObjectAction

/-- Whether the value has no parts. -/
def Value.isPlain : Value → Bool
  | set _ | array _ | event _ => false
  | _ => true

/-! ## Actions of a population -/

/-- The action is one that the population stores. -/
inductive Population.Stores (p : Population) (a : Action) : Prop
  | function {name : String} (h : Table.value? p.functions name = some a)
  | bridge {entity name : String} (h : Table.value? (operationsOf p.entities entity) name = some a)
  | port {port name : String} (h : Table.value? (operationsOf p.ports port) name = some a)
  | derived {className name : String} {c : ClassDef} (hc : Table.value? p.classes className = some c)
    (h : Table.value? c.derived name = some a)
  | operation {className name : String} {c : ClassDef} (hc : Table.value? p.classes className = some c)
    (h : Table.value? c.operations name = some a)
  | classOperation {className name : String} {c : ClassDef} (hc : Table.value? p.classes className = some c)
    (h : Table.value? c.classOperations name = some a)

namespace Population

variable {p : Population} {a : Action} {name : String}

theorem value?_of_findOperation {operations : Table Action} {owner : String}
    (h : findOperation operations owner name = .ok a) : Table.value? operations name = some a := by
  unfold findOperation at h
  split at h
  · rename_i hfound
    cases h
    exact hfound
  · cases h

theorem stores_of_findFunction (h : p.findFunction name = .ok a) : p.Stores a := by
  unfold findFunction at h
  split at h
  · rename_i hfound
    cases h
    exact .function hfound
  · cases h

theorem stores_of_findBridge {entity : String} (h : p.findBridge entity name = .ok a) : p.Stores a :=
  .bridge (value?_of_findOperation h)

theorem stores_of_findPortOperation {port : String} (h : p.findPortOperation port name = .ok a) : p.Stores a :=
  .port (value?_of_findOperation h)

theorem stores_of_findClassOperation {className : String} (h : p.findClassOperation className name = .ok a) :
    p.Stores a := by
  obtain ⟨c, hc, h⟩ := ok_of_bind h
  exact .classOperation (value?_of_classDef hc) (value?_of_findOperation h)

theorem stores_of_findInstanceOperation {r : InstanceRef} (h : p.findInstanceOperation r name = .ok a) :
    p.Stores a := by
  obtain ⟨i, -, h⟩ := ok_of_bind h
  obtain ⟨c, hc, h⟩ := ok_of_bind h
  exact .operation (value?_of_classDef hc) (value?_of_findOperation h)

theorem stores_of_readAttribute {r : InstanceRef} (h : p.readAttribute r name = .ok (.derived a)) : p.Stores a := by
  obtain ⟨i, -, h⟩ := ok_of_bind h
  obtain ⟨c, hc, h⟩ := ok_of_bind h
  split at h
  · rename_i hfound
    cases h
    exact .derived (value?_of_classDef hc) hfound
  · cases h
  · cases h

end Population

/-- The operations that a run does on its population, where events carry values that satisfy `P`. -/
inductive Operation.InRun (P : Value → Prop) : Operation → Prop
  | create (className : String) : InRun P (.create className)
  | delete (r : InstanceRef) : InRun P (.delete r)
  | relate (a b : InstanceRef) (id : String) (phrase : Option String) : InRun P (.relate a b id phrase)
  | unrelate (a b : InstanceRef) (id : String) (phrase : Option String) : InRun P (.unrelate a b id phrase)
  | writeAttribute (r : InstanceRef) (name : String) (v : Value) : InRun P (.writeAttribute r name v)
  | generate (e : Event) (h : ∀ x ∈ e.arguments, P x.2) : InRun P (.generate e)

/-- What such operations leave as it is; and an event that is new carries values that satisfy `P`. -/
structure Population.RunsTo (P : Value → Prop) (p q : Population) : Prop where
  classes : q.classes = p.classes
  functions : q.functions = p.functions
  entities : q.entities = p.entities
  ports : q.ports = p.ports
  events : ∀ e ∈ q.events, e ∈ p.events ∨ ∀ x ∈ e.arguments, P x.2

namespace Population

variable {P : Value → Prop} {p : Population}

theorem RunsTo.refl (p : Population) : RunsTo P p p := ⟨rfl, rfl, rfl, rfl, fun _ => .inl⟩

theorem RunsTo.orUnchanged {e : Except PopulationError Population} (h : ∀ q, e = .ok q → RunsTo P p q) :
    RunsTo P p (p.orUnchanged e) := by
  cases e with
  | ok q => exact h q rfl
  | error => exact .refl p

theorem runsTo_after {op : Operation} (h : op.InRun P) (p : Population) : RunsTo P p (p.after op) := by
  cases h with
  | create className =>
    refine .orUnchanged fun q h => ?_
    obtain ⟨attributes, rfl⟩ := create_ok h
    exact ⟨rfl, rfl, rfl, rfl, fun _ => .inl⟩
  | delete r =>
    refine .orUnchanged fun q h => ?_
    obtain rfl := delete_ok h
    exact ⟨rfl, rfl, rfl, rfl, fun _ => .inl⟩
  | relate a b id phrase =>
    refine .orUnchanged fun q h => ?_
    obtain ⟨r, _, _, _, _, _, _, rfl⟩ := relate_ok h
    exact ⟨rfl, rfl, rfl, rfl, fun _ => .inl⟩
  | unrelate a b id phrase =>
    refine .orUnchanged fun q h => ?_
    obtain ⟨r, _, _, rfl⟩ := unrelate_ok h
    exact ⟨rfl, rfl, rfl, rfl, fun _ => .inl⟩
  | writeAttribute r name v =>
    refine .orUnchanged fun q h => ?_
    obtain ⟨w, rfl⟩ := writeAttribute_ok h
    exact ⟨rfl, rfl, rfl, rfl, fun _ => .inl⟩
  | generate e he =>
    refine .orUnchanged fun q h => ?_
    obtain rfl := generate_ok h
    refine ⟨rfl, rfl, rfl, rfl, fun e' he' => ?_⟩
    rcases List.mem_append.mp he' with hold | hnew
    · exact .inl hold
    · rw [List.mem_singleton.mp hnew]
      exact .inr he

end Population

/-! ## Native operations -/

/-- The operation on a population that a request is. -/
def Request.operation : Request → Operation
  | create className => .create className
  | delete r => .delete r
  | relate a b id phrase => .relate a b id phrase
  | unrelate a b id phrase => .unrelate a b id phrase
  | writeAttribute r name v => .writeAttribute r name v
  | generate e => .generate e

/-- If the request is for an event, this carries values that satisfy `P`. -/
def Request.GeneratesOnly (P : Value → Prop) : Request → Prop
  | generate e => ∀ x ∈ e.arguments, P x.2
  | create _ | delete _ | relate _ _ _ _ | unrelate _ _ _ _ | writeAttribute _ _ _ => True

theorem Population.grant_eq (p : Population) (q : Request) : p.grant q = p.after q.operation := by
  cases q with
  | create | delete | relate | unrelate | writeAttribute | generate => rfl

theorem Request.GeneratesOnly.inRun {P : Value → Prop} {q : Request} (h : q.GeneratesOnly P) : q.operation.InRun P := by
  cases q with
  | create className => exact .create className
  | delete r => exact .delete r
  | relate a b id phrase => exact .relate a b id phrase
  | unrelate a b id phrase => exact .unrelate a b id phrase
  | writeAttribute r name v => exact .writeAttribute r name v
  | generate e => exact .generate e h

/-- In populations that satisfy `P`, native operations that get values which satisfy `Q` give such values only: as their
results, and in the events that they generate. -/
def Host.Respects (host : Host) (P : Population → Prop) (Q : Value → Prop) : Prop :=
  ∀ name p receiver arguments, P p → (∀ x ∈ arguments, Q x.2) →
    (∀ q ∈ (host.natives name p receiver arguments).requests, q.GeneratesOnly Q) ∧
    ∀ v, (host.natives name p receiver arguments).result = .ok v → Q v

/-- Where nothing is asked of values, there is nothing to respect. -/
theorem Host.respects_true (host : Host) (P : Population → Prop) : host.Respects P fun _ => True := by
  refine fun name p receiver arguments _ _ => ⟨fun q _ => ?_, fun _ _ => trivial⟩
  cases q with
  | generate e => exact fun _ _ => trivial
  | create | delete | relate | unrelate | writeAttribute => trivial

/-! ## Faults and activations -/

/-- The faults that a journal has, oldest first: label, line and fault. -/
def Journal.faults (j : Journal) : List (String × Nat × Fault) :=
  j.toList.filterMap fun
    | .fault label line f => some (label, line, f)
    | .log _ _ => none

/-- The two activations differ at most in receiver, candidates and loops. -/
structure Activation.Alike (a a' : Activation) : Prop where
  label : a'.label = a.label
  arguments : a'.arguments = a.arguments
  derived : a'.derived = a.derived

namespace Run

open Population (distinct)

/-- What a moment adds to the faults of the journal. -/
def Moment.fault? : Moment → Option (String × Nat × Fault)
  | .fault origin node f _ _ => some (origin.label, node.line, f)
  | .state _ | .result _ _ | .begins _ | .pass | .ends _ _ _ => none

/-! ## Laws -/

/-- What is asked of values, populations and bodies, and of the nodes that fail, such that all operations respect
it. -/
structure Law where
  value : Value → Prop
  population : Population → Prop
  known : Origin → Prop
  fails : Node → Fault → RunState → RunState → Prop
  plain : ∀ v, v.isPlain = true → value v
  nodup : ∀ refs, refs.Nodup → value (.set refs)
  sublist : ∀ refs refs', value (.set refs) → refs'.Sublist refs → value (.set refs')
  empty : value (.array [])
  element : ∀ items, value (.array items) → ∀ v ∈ items, value v
  grow : ∀ items items' position, value (.array items) → growTo items position = .ok items' → value (.array items')
  put : ∀ items position v, value (.array items) → value v → value (.array (items.set position v))
  argument : ∀ e, value (.event e) → ∀ x ∈ e.arguments, value x.2
  event : ∀ e : Event, (∀ x ∈ e.arguments, value x.2) → value (.event e)
  after : ∀ p op, population p → op.InRun value → population (p.after op)
  stored : ∀ p r name v, population p → p.readAttribute r name = .ok (.stored v) → value v
  instances : ∀ p className refs, population p → p.selectMany className = .ok refs → value (.set refs)
  action : ∀ p label body, population p → p.Stores (.written label body) → known ⟨label, body⟩

namespace Law

variable (L : Law)

/-- All that a state holds satisfies the law. -/
structure Holds (s : RunState) : Prop where
  population : L.population s.population
  scopes : s.scopes.All L.value
  arguments : ∀ x ∈ s.activation.arguments, L.value x.2
  derived : ∀ cell ∈ s.activation.derived, L.value cell.result

/-- And a body with that label is running. -/
structure In (label : String) (s : RunState) : Prop extends L.Holds s where
  running : s.activation.label = label

/-- The value that a signal carries satisfies the law. -/
def Signals : Signal → Prop
  | .returned v => L.value v
  | .normal | .broke | .continued | .stopped => True

/-- What the law asks of a moment. -/
def Fits : Moment → Prop
  | .state s => L.Holds s
  | .result _ v => L.value v
  | .fault origin node f s s' => L.known origin ∧ origin.body.Contains node ∧
    s.activation.label = origin.label ∧ s'.activation.label = origin.label ∧ L.fails node f s s'
  | .begins _ | .pass => True
  | .ends _ signal s => L.Signals signal ∧ L.Holds s

/-- What is left by a step that ends: a state under the law that satisfies `P`, and a result that satisfies `Q`. -/
def Ends {α : Type} (label : String) (Q : α → Prop) (P : RunState → Prop) : Outcome α → Prop
  | .done a s => L.In label s ∧ Q a ∧ P s
  | .failed _ s => L.In label s ∧ P s
  | .exhausted => True

/-- What a step does that only looks at the state. -/
def Reads {α : Type} (label : String) (Q : α → Prop) (x : Run α) : Prop :=
  ∀ s, L.In label s → L.Ends label Q (· = s) (x s)

/-- What a step does that makes one change. -/
def Stays {α : Type} (label : String) (Q : α → Prop) (x : Run α) : Prop :=
  ∀ s, L.In label s → L.Ends label Q (Changes s) (x s)

/-- What a step does of which there is a record. -/
def Upholds {α : Type} (label : String) (Q : α → Prop) {x : Run α} (r : Record x) : Prop :=
  ∀ s, L.In label s → (∀ m ∈ r.moments s, L.Fits m) ∧ L.Ends label Q (Leads s (r.moments s)) (x s)

end Law

variable {L : Law} {label : String} {α β : Type} {Q R : α → Prop}

theorem Law.Ends.imp {P P' : RunState → Prop} {o : Outcome α} (h : L.Ends label Q P o) (hQ : ∀ a, Q a → R a)
    (hP : ∀ s, P s → P' s) : L.Ends label R P' o := by
  cases o with
  | done a s => exact ⟨h.1, hQ a h.2.1, hP s h.2.2⟩
  | failed f s => exact ⟨h.1, hP s h.2⟩
  | exhausted => trivial

/-- A change adds no fault to the journal. -/
theorem Changes.faults {s s' : RunState} (h : Changes s s') : s'.journal.faults = s.journal.faults := by
  cases h with
  | population | scopes | activation => rfl
  | log severity text => simp [Journal.faults]

/-- The faults of the journal are those of the moments that led to it. -/
theorem Leads.faults {s s' : RunState} {ms : List Moment} (h : Leads s ms s') (hfits : ∀ m ∈ ms, L.Fits m) :
    s'.journal.faults = s.journal.faults ++ ms.filterMap Moment.fault? := by
  induction h with
  | nil => exact (List.append_nil _).symm
  | state hchange _ ih =>
    rw [ih (List.forall_mem_cons.mp hfits).2, hchange.faults]
    rfl
  | result v _ ih => exact ih (List.forall_mem_cons.mp hfits).2
  | @fault s _ _ origin node f began _ ih =>
    obtain ⟨hfault, hrest⟩ := List.forall_mem_cons.mp hfits
    -- the label in the journal is that of the activation, and the body runs under it
    have hrunning : s.activation.label = origin.label := hfault.2.2.2.1
    have hnoted : (noted node.line f s).journal.faults = s.journal.faults ++ [(origin.label, node.line, f)] := by
      simp [Journal.faults, noted, hrunning]
    rw [ih (List.forall_mem_cons.mp hrest).2, hnoted, List.append_assoc]
    rfl
  | begins st _ ih => exact ih (List.forall_mem_cons.mp hfits).2
  | pass _ ih => exact ih (List.forall_mem_cons.mp hfits).2
  | ends st signal _ ih => exact ih (List.forall_mem_cons.mp hfits).2

/-! ## Steps that only look at the state -/

/-- After a step that only looks at the state. -/
theorem Law.Ends.bind {S : β → Prop} {P : RunState → Prop} {x : Run α} {f : α → Run β} {s : RunState}
    (hx : L.Ends label Q (· = s) (x s)) (hP : P s) (hf : ∀ a, Q a → L.Ends label S P (f a s)) :
    L.Ends label S P ((x >>= f) s) := by
  show L.Ends label S P (Run.bind x f s)
  unfold Run.bind
  cases hxs : x s with
  | done a s₁ =>
    rw [hxs] at hx
    obtain ⟨-, ha, rfl⟩ := hx
    exact hf a ha
  | failed e s₁ =>
    rw [hxs] at hx
    obtain ⟨hin, rfl⟩ := hx
    exact ⟨hin, hP⟩
  | exhausted => trivial

theorem Law.Reads.bind {S : β → Prop} {x : Run α} {f : α → Run β} (hx : L.Reads label Q x)
    (hf : ∀ a, Q a → L.Reads label S (f a)) : L.Reads label S (x >>= f) :=
  fun s hs => (hx s hs).bind rfl fun a ha => hf a ha s hs

theorem Law.Reads.stays {x : Run α} (hx : L.Reads label Q x) : L.Stays label Q x :=
  fun s hs => (hx s hs).imp (fun _ ha => ha) fun _ hs' => hs' ▸ .refl s

theorem reads_pure {a : α} (h : Q a) : L.Reads label Q (Pure.pure a : Run α) := fun _ hs => ⟨hs, h, rfl⟩

theorem reads_exhausted : L.Reads label Q (exhausted : Run α) := fun _ _ => trivial

theorem reads_fail (f : Fault) : L.Reads label Q (fail f : Run α) := fun _ hs => ⟨hs, rfl⟩

theorem reads_look {f : RunState → α} (h : ∀ s, L.In label s → Q (f s)) : L.Reads label Q (look f) :=
  fun s hs => ⟨hs, h s hs, rfl⟩

theorem reads_ofExcept {r : Except Fault α} (h : ∀ a, r = .ok a → Q a) : L.Reads label Q (ofExcept r) := by
  cases r with
  | ok a => exact reads_pure (h a rfl)
  | error f => exact reads_fail f

theorem reads_ask {f : Population → Except PopulationError α} (h : ∀ p a, L.population p → f p = .ok a → Q a) :
    L.Reads label Q (ask f) := by
  intro s hs
  unfold ask
  cases hf : f s.population with
  | ok a => exact ⟨hs, h _ a hs.population hf, rfl⟩
  | error e => exact ⟨hs, rfl⟩

theorem reads_readVariable (name : String) : L.Reads label L.value (readVariable name) := by
  refine .bind (Q := (·.All L.value)) (reads_look fun s hs => hs.scopes) fun t ht => ?_
  refine reads_ask fun p v hp hv => ?_
  unfold resolveName at hv
  split at hv
  · rename_i v' hlookup
    cases hv
    exact ht.lookup hlookup
  · cases hglobal : p.findGlobal name with
    | ok g =>
      rw [hglobal] at hv
      cases hv
      exact L.plain _ rfl
    | error e =>
      rw [hglobal] at hv
      cases hv

theorem reads_expectRef (v : Value) : L.Reads label (fun _ => True) (expectRef v) := by
  unfold expectRef
  split
  · exact reads_pure trivial
  · exact reads_fail _

theorem reads_expectInstances (expected : String) {v : Value} (hv : L.value v) :
    L.Reads label (fun refs => L.value (.set refs)) (expectInstances expected v) := by
  unfold expectInstances
  split
  · rename_i refs hrefs
    refine reads_pure ?_
    cases v with
    | set refs' =>
      cases hrefs
      exact hv
    | null =>
      cases hrefs
      exact L.nodup _ List.nodup_nil
    | ref r =>
      cases hrefs
      exact L.nodup _ (List.nodup_singleton r)
    | _ => cases hrefs
  · exact reads_fail _

theorem reads_readRef (name : String) : L.Reads label (fun _ => True) (readRef name) :=
  .bind (reads_readVariable name) fun v _ => reads_expectRef v

theorem reads_receiver : L.Reads label (fun _ => True) receiver := by
  refine .bind (Q := fun _ => True) (reads_look fun _ _ => trivial) fun r _ => ?_
  cases r with
  | some r => exact reads_pure trivial
  | none => exact reads_fail _

theorem reads_selected : L.Reads label (fun _ => True) selected := by
  refine .bind (Q := fun _ => True) (reads_look fun _ _ => trivial) fun r _ => ?_
  cases r with
  | some r => exact reads_pure trivial
  | none => exact reads_fail _

/-! ## Steps that make one change -/

theorem stays_perform {f : Population → Except PopulationError (α × Population)}
    (h : ∀ p a q, L.population p → f p = .ok (a, q) → L.population q ∧ Q a) : L.Stays label Q (perform f) := by
  intro s hs
  unfold perform
  cases hf : f s.population with
  | ok result =>
    obtain ⟨hq, ha⟩ := h _ result.1 result.2 hs.population hf
    exact ⟨{ hs with population := hq }, ha, .population _⟩
  | error e => exact ⟨hs, .refl s⟩

/-- A change to the population is one of the operations. -/
theorem stays_change {f : Population → Except PopulationError Population} {op : Operation} (hop : op.InRun L.value)
    (h : ∀ p : Population, p.after op = p.orUnchanged (f p)) : L.Stays label (fun _ => True) (change f) := by
  refine stays_perform fun p a q hp hq => ⟨?_, trivial⟩
  have hafter := L.after p op hp hop
  rw [h] at hafter
  cases hf : f p with
  | ok q' =>
    rw [hf] at hq hafter
    cases hq
    exact hafter
  | error e =>
    rw [hf] at hq
    cases hq

theorem Law.population_grantAll {p : Population} (hp : L.population p) {requests : List Request}
    (h : ∀ q ∈ requests, q.GeneratesOnly L.value) : L.population (p.grantAll requests) := by
  induction requests generalizing p with
  | nil => exact hp
  | cons q rest ih =>
    obtain ⟨hq, hrest⟩ := List.forall_mem_cons.mp h
    refine ih ?_ hrest
    rw [Population.grant_eq]
    exact L.after p q.operation hp hq.inRun

/-- What a native operation changes is the population, however it ends. -/
theorem stays_performNative {host : Host} (hhost : host.Respects L.population L.value) (name : String)
    (receiver : Option InstanceRef) {arguments : Arguments} (harguments : ∀ x ∈ arguments, L.value x.2) :
    L.Stays label L.value (performNative (host.natives name) receiver arguments) := by
  intro s hs
  obtain ⟨hrequests, hresult⟩ := hhost name s.population receiver arguments hs.population harguments
  rw [performNative_apply]
  have hgranted := Law.population_grantAll hs.population hrequests
  unfold ask
  cases hcall : (host.natives name s.population receiver arguments).result with
  | ok v => exact ⟨{ hs with population := hgranted }, hresult v hcall, .population _⟩
  | error e => exact ⟨{ hs with population := hgranted }, .population _⟩

theorem stays_changeScopes {f : Scopes → Except ScopeError (α × Scopes)}
    (h : ∀ t a t', t.All L.value → f t = .ok (a, t') → t'.All L.value ∧ Q a) : L.Stays label Q (changeScopes f) := by
  intro s hs
  unfold changeScopes
  cases hf : f s.scopes with
  | ok result =>
    obtain ⟨ht, ha⟩ := h _ result.1 result.2 hs.scopes hf
    exact ⟨{ hs with scopes := ht }, ha, .scopes _⟩
  | error e => exact ⟨hs, .refl s⟩

theorem stays_install (name : String) {v : Value} (hv : L.value v) :
    L.Stays label (fun _ => True) (install name v) := by
  refine stays_changeScopes fun t a t' ht h => ⟨?_, trivial⟩
  cases hinstall : t.install name v with
  | ok t₁ =>
    rw [hinstall] at h
    cases h
    exact ht.install hv hinstall
  | error e =>
    rw [hinstall] at h
    cases h

theorem stays_setPass (index : Nat) : L.Stays label (fun _ => True) (setPass index) := by
  rintro ⟨p, scopes, ⟨l, receiver, arguments, derived, candidates, loops⟩, journal⟩ hs
  cases loops with
  | nil => exact ⟨hs, trivial, .activation _⟩
  | cons c outer =>
    exact ⟨⟨⟨hs.population, hs.scopes, hs.arguments, hs.derived⟩, hs.running⟩, trivial, .activation _⟩

/-! ## Steps with a record -/

theorem Law.Ends.fits_left {P : RunState → Prop} {o : Outcome α} (h : L.Ends label Q P o) :
    ∀ m ∈ left o, L.Fits m := by
  intro m hm
  cases o with
  | done a s =>
    rw [List.mem_singleton.mp hm]
    exact h.1.toHolds
  | failed f s =>
    rw [List.mem_singleton.mp hm]
    exact h.1.toHolds
  | exhausted => cases hm

/-- The state that a step has left comes last. -/
theorem Law.Ends.leads_left {s : RunState} {ms : List Moment} {o : Outcome α}
    (h : L.Ends label Q (fun s' => ∃ s₁, Leads s ms s₁ ∧ Changes s₁ s') o) :
    L.Ends label Q (Leads s (ms ++ left o)) o := by
  cases o with
  | done a s' =>
    obtain ⟨hin, ha, s₁, hleads, hchange⟩ := h
    exact ⟨hin, ha, hleads.append (.state hchange (.nil s'))⟩
  | failed f s' =>
    obtain ⟨hin, s₁, hleads, hchange⟩ := h
    exact ⟨hin, hleads.append (.state hchange (.nil s'))⟩
  | exhausted => trivial

theorem upholds_done {a : α} (h : Q a) : L.Upholds label Q (Record.done a) :=
  fun s hs => ⟨fun _ hm => (List.not_mem_nil hm).elim, hs, h, .nil s⟩

theorem upholds_step {x : Run α} (h : L.Stays label Q x) : L.Upholds label Q (Record.step x) := by
  intro s hs
  have hend : L.Ends label Q (fun s' => ∃ s₁, Leads s [] s₁ ∧ Changes s₁ s') (x s) :=
    (h s hs).imp (fun _ ha => ha) fun s' hchange => ⟨s, .nil s, hchange⟩
  exact ⟨hend.fits_left, hend.leads_left⟩

theorem upholds_read {x : Run α} (h : L.Reads label Q x) : L.Upholds label Q (Record.step x) := upholds_step h.stays

namespace Law.Upholds

theorem mono {x : Run α} {r : Record x} (h : L.Upholds label Q r) (hQ : ∀ a, Q a → R a) : L.Upholds label R r :=
  fun s hs => ⟨(h s hs).1, (h s hs).2.imp hQ fun _ hleads => hleads⟩

theorem bind {S : β → Prop} {x : Run α} {f : α → Run β} {rx : Record x} {rf : ∀ a, Record (f a)}
    (hx : L.Upholds label Q rx) (hf : ∀ a, Q a → L.Upholds label S (rf a)) : L.Upholds label S (rx.bind rf) := by
  intro s hs
  obtain ⟨hfits, hend⟩ := hx s hs
  cases hxs : x s with
  | done a s₁ =>
    rw [hxs] at hend
    obtain ⟨hin, ha, hleads⟩ := hend
    obtain ⟨hfits₁, hend₁⟩ := hf a ha s₁ hin
    rw [Record.moments_bind_done hxs, bind_done hxs]
    refine ⟨List.forall_mem_append.mpr ⟨hfits, hfits₁⟩, ?_⟩
    exact hend₁.imp (fun _ hb => hb) fun s' hleads₁ => hleads.append hleads₁
  | failed e s₁ =>
    rw [hxs] at hend
    rw [Record.moments_bind_other (by simp [hxs]), bind_failed hxs]
    exact ⟨hfits, hend⟩
  | exhausted =>
    have hbind : (x >>= f) s = .exhausted := by
      show Run.bind x f s = _
      simp only [Run.bind, hxs]
    rw [Record.moments_bind_other (by simp [hxs]), hbind]
    exact ⟨hfits, trivial⟩

theorem either {c : Bool} {x y : Run α} {rx : Record x} {ry : Record y} (hx : c = true → L.Upholds label Q rx)
    (hy : c = false → L.Upholds label Q ry) : L.Upholds label Q (.either c rx ry) := by
  cases c with
  | true => exact hx rfl
  | false => exact hy rfl

/-- What is reported of a node is what its record says. -/
theorem reporting {origin : Origin} {node : Node} (p : Fault → Bool) {a : α} {x : Run α} {rx : Record x}
    (hx : L.Upholds origin.label Q rx) (hknown : L.known origin) (hnode : origin.body.Contains node)
    (hfails : ∀ s f s', x s = .failed f s' → p f = true → L.fails node f s s') (ha : Q a) :
    L.Upholds origin.label Q (rx.reporting origin node p a) := by
  intro s hs
  obtain ⟨hfits, hend⟩ := hx s hs
  -- a fault that is not reported here goes on as it is
  by_cases hreported : ∃ f s', x s = .failed f s' ∧ p f = true
  · obtain ⟨f, s₁, hxs, hp⟩ := hreported
    have hrecover : recover x p (fun f => do report node.line f; return a) s = .done a (noted node.line f s₁) := by
      simp only [recover, hxs, hp, if_true]
      rfl
    rw [hxs] at hend
    obtain ⟨hin, hleads⟩ := hend
    have hfault : L.Fits (.fault origin node f s s₁) :=
      ⟨hknown, hnode, hs.running, hin.running, hfails s f s₁ hxs hp⟩
    have hnoted : L.Holds (noted node.line f s₁) := ⟨hin.population, hin.scopes, hin.arguments, hin.derived⟩
    rw [hrecover, Record.moments_reporting hxs hp]
    refine ⟨?_, ⟨hnoted, hin.running⟩, ha, hleads.append (.fault origin node f s (.nil _))⟩
    refine List.forall_mem_append.mpr ⟨hfits, List.forall_mem_cons.mpr ⟨hfault, ?_⟩⟩
    exact List.forall_mem_singleton.mpr hnoted
  · have hother : ∀ f s', x s = .failed f s' → p f = false :=
      fun f s' hxs => Bool.eq_false_of_not_eq_true fun hp => hreported ⟨f, s', hxs, hp⟩
    have hrecover : recover x p (fun f => do report node.line f; return a) s = x s := by
      unfold recover
      cases hxs : x s with
      | failed f s' => simp only [hother f s' hxs, Bool.false_eq_true, if_false]
      | done | exhausted => rfl
    rw [hrecover, Record.moments_reporting_other hother]
    exact ⟨hfits, hend⟩

end Law.Upholds

/-! ## Steps inside something that is left again -/

theorem Law.In.alike {s : RunState} (hs : L.In label s) {a : Activation} (h : s.activation.Alike a) :
    L.In label { s with activation := a } := by
  refine ⟨⟨hs.population, hs.scopes, ?_, ?_⟩, h.label.trans hs.running⟩
  · show ∀ x ∈ a.arguments, L.value x.2
    rw [h.arguments]
    exact hs.arguments
  · show ∀ cell ∈ a.derived, L.value cell.result
    rw [h.derived]
    exact hs.derived

/-- What is recorded of a step that is entered by one change and left by another. -/
theorem enclosed {inner : String} {x y : Run α} {rx : Record x} {s entered : RunState} (hentered : L.In inner entered)
    (henter : Changes s entered) (hx : L.Upholds inner Q rx)
    (hleft : ∀ P, L.Ends inner Q P (x entered) → L.Ends label Q (fun s' => ∃ s₁, P s₁ ∧ Changes s₁ s') (y s)) :
    (∀ m ∈ .state entered :: rx.moments entered ++ left (y s), L.Fits m) ∧
      L.Ends label Q (Leads s (.state entered :: rx.moments entered ++ left (y s))) (y s) := by
  obtain ⟨hfits, hend⟩ := hx entered hentered
  have hend' := hleft _ hend
  refine ⟨?_, Law.Ends.leads_left ?_⟩
  · refine List.forall_mem_append.mpr ⟨?_, hend'.fits_left⟩
    exact List.forall_mem_cons.mpr ⟨hentered.toHolds, hfits⟩
  · exact hend'.imp (fun _ ha => ha) fun s' ⟨s₁, hleads, hchange⟩ => ⟨s₁, .state henter hleads, hchange⟩

namespace Law.Upholds

theorem between {enter leave : Activation → Activation} {x : Run α} {rx : Record x} (hx : L.Upholds label Q rx)
    (henter : ∀ a : Activation, a.Alike (enter a)) (hleave : ∀ a : Activation, a.Alike (leave a)) :
    L.Upholds label Q (rx.between enter leave) := by
  intro s hs
  refine enclosed (hs.alike (henter s.activation)) (.activation _) hx fun P hend => ?_
  unfold Run.between
  cases hxs : x { s with activation := enter s.activation } with
  | done a s₁ =>
    rw [hxs] at hend
    exact ⟨hend.1.alike (hleave _), hend.2.1, s₁, hend.2.2, .activation _⟩
  | failed f s₁ =>
    rw [hxs] at hend
    exact ⟨hend.1.alike (hleave _), s₁, hend.2, .activation _⟩
  | exhausted => trivial

theorem withCandidate {x : Run α} {rx : Record x} (hx : L.Upholds label Q rx) (r : InstanceRef) :
    L.Upholds label Q (rx.withCandidate r) :=
  hx.between (fun _ => ⟨rfl, rfl, rfl⟩) fun _ => ⟨rfl, rfl, rfl⟩

theorem withLoop {x : Run α} {rx : Record x} (hx : L.Upholds label Q rx) (c : LoopCursor) :
    L.Upholds label Q (rx.withLoop c) :=
  hx.between (fun _ => ⟨rfl, rfl, rfl⟩) fun _ => ⟨rfl, rfl, rfl⟩

/-- Another activation, which is left for the one before. -/
theorem within {a : Activation} {x : Run α} {rx : Record x} (hx : L.Upholds a.label Q rx)
    (harguments : ∀ x ∈ a.arguments, L.value x.2) (hderived : ∀ cell ∈ a.derived, L.value cell.result) :
    L.Upholds label Q (rx.within a) := by
  intro s hs
  have hentered : L.In a.label { s with activation := a } := ⟨⟨hs.population, hs.scopes, harguments, hderived⟩, rfl⟩
  refine enclosed hentered (.activation a) hx fun P hend => ?_
  -- the caller gets its own activation back, whatever the callee made of its one
  have hback : ∀ s₁, L.In a.label s₁ → L.In label { s₁ with activation := s.activation } :=
    fun s₁ h₁ => ⟨⟨h₁.population, h₁.scopes, hs.arguments, hs.derived⟩, hs.running⟩
  unfold Run.between
  cases hxs : x { s with activation := a } with
  | done v s₁ =>
    rw [hxs] at hend
    exact ⟨hback s₁ hend.1, hend.2.1, s₁, hend.2.2, .activation _⟩
  | failed f s₁ =>
    rw [hxs] at hend
    exact ⟨hback s₁ hend.1, s₁, hend.2, .activation _⟩
  | exhausted => trivial

theorem inScope {x : Run α} {rx : Record x} (hx : L.Upholds label Q rx) : L.Upholds label Q rx.inScope := by
  intro s hs
  have hentered : L.In label { s with scopes := s.scopes.enterScope } := { hs with scopes := hs.scopes.enterScope }
  refine enclosed hentered (.scopes _) hx fun P hend => ?_
  unfold Run.inScope
  cases hxs : x { s with scopes := s.scopes.enterScope } with
  | done v s₁ =>
    rw [hxs] at hend
    obtain ⟨hin, hv, hP⟩ := hend
    dsimp only
    cases hleave : s₁.scopes.leaveScope with
    | ok result => exact ⟨{ hin with scopes := hin.scopes.leaveScope hleave }, hv, s₁, hP, .scopes result.2⟩
    | error e => exact ⟨hin, s₁, hP, .refl s₁⟩
  | failed f s₁ =>
    rw [hxs] at hend
    obtain ⟨hin, hP⟩ := hend
    dsimp only
    cases hleave : s₁.scopes.leaveScope with
    | ok result => exact ⟨{ hin with scopes := hin.scopes.leaveScope hleave }, s₁, hP, .scopes result.2⟩
    | error e => exact ⟨hin, s₁, hP, .refl s₁⟩
  | exhausted => trivial

theorem inBlock {x : Run α} {rx : Record x} (hx : L.Upholds label Q rx) : L.Upholds label Q rx.inBlock := by
  intro s hs
  cases henter : s.scopes.enterBlock with
  | error e =>
    -- without a scope there is no block to enter
    have hend : Run.inBlock x s = .failed (.scope e) s := by simp only [Run.inBlock, henter]
    simp only [Record.inBlock, henter, hend]
    exact ⟨List.forall_mem_singleton.mpr hs.toHolds, hs, .state (.refl s) (.nil s)⟩
  | ok t =>
    have hentered : L.In label { s with scopes := t } := { hs with scopes := hs.scopes.enterBlock henter }
    simp only [Record.inBlock, henter]
    refine enclosed hentered (.scopes t) hx fun P hend => ?_
    simp only [Run.inBlock, henter]
    cases hxs : x { s with scopes := t } with
    | done v s₁ =>
      rw [hxs] at hend
      obtain ⟨hin, hv, hP⟩ := hend
      dsimp only
      cases hleave : s₁.scopes.leaveBlock with
      | ok result => exact ⟨{ hin with scopes := hin.scopes.leaveBlock hleave }, hv, s₁, hP, .scopes result.2⟩
      | error e => exact ⟨hin, s₁, hP, .refl s₁⟩
    | failed f s₁ =>
      rw [hxs] at hend
      obtain ⟨hin, hP⟩ := hend
      dsimp only
      cases hleave : s₁.scopes.leaveBlock with
      | ok result => exact ⟨{ hin with scopes := hin.scopes.leaveBlock hleave }, s₁, hP, .scopes result.2⟩
      | error e => exact ⟨hin, s₁, hP, .refl s₁⟩
    | exhausted => trivial

theorem valued {x : Run Value} {rx : Record x} (hx : L.Upholds label L.value rx) :
    L.Upholds label L.value rx.valued := by
  intro s hs
  obtain ⟨hfits, hend⟩ := hx s hs
  cases hxs : x s with
  | done v s₁ =>
    rw [hxs] at hend
    obtain ⟨hin, hv, hleads⟩ := hend
    simp only [Record.valued, hxs]
    refine ⟨List.forall_mem_append.mpr ⟨hfits, List.forall_mem_singleton.mpr hv⟩, hin, hv, ?_⟩
    exact hleads.append (.result v (.nil s₁))
  | failed f s₁ =>
    rw [hxs] at hend
    simp only [Record.valued, hxs, List.append_nil]
    exact ⟨hfits, hend⟩
  | exhausted =>
    simp only [Record.valued, hxs, List.append_nil]
    exact ⟨hfits, trivial⟩

theorem statement {x : Run Signal} {rx : Record x} (hx : L.Upholds label L.Signals rx) (st : Statement) :
    L.Upholds label L.Signals (rx.statement st) := by
  intro s hs
  obtain ⟨hfits, hend⟩ := hx s hs
  cases hxs : x s with
  | done signal s₁ =>
    rw [hxs] at hend
    obtain ⟨hin, hsignal, hleads⟩ := hend
    rw [Record.moments_statement hxs]
    refine ⟨List.forall_mem_append.mpr ⟨List.forall_mem_cons.mpr ⟨trivial, hfits⟩, ?_⟩, hin, hsignal, ?_⟩
    · exact List.forall_mem_singleton.mpr ⟨hsignal, hin.toHolds⟩
    · exact .begins st (hleads.append (.ends st signal (.nil s₁)))
  | failed f s₁ =>
    rw [hxs] at hend
    rw [Record.moments_statement_other (by simp [hxs])]
    exact ⟨List.forall_mem_cons.mpr ⟨trivial, hfits⟩, hend.1, .begins st hend.2⟩
  | exhausted =>
    rw [Record.moments_statement_other (by simp [hxs])]
    exact ⟨List.forall_mem_cons.mpr ⟨trivial, hfits⟩, trivial⟩

theorem turning {x : Run Signal} {rx : Record x} {Q : Signal → Prop} (hx : L.Upholds label Q rx) :
    L.Upholds label Q rx.turning := by
  intro s hs
  obtain ⟨hfits, hend⟩ := hx s hs
  exact ⟨List.forall_mem_cons.mpr ⟨trivial, hfits⟩, hend.imp (fun _ ha => ha) fun _ hleads => .pass hleads⟩

end Law.Upholds

end Run

end ObjectAction
