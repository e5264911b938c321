/-
Values in runs are well formed: a set holds no instance twice, and an array is no longer than an index can reach, at
every depth of nesting. Sets come from selections, which keep some of the instances that there are, and from
navigations, which keep each instance where it was reached first; arrays grow by reading and by writing, up to the
same bound.

Main statement: `wellFormed_throughout`.
-/
import ObjectAction.Proofs.Population.Attributes
import ObjectAction.Proofs.Run.Entry

namespace ObjectAction

/-- Sets without repetition and arrays of bounded length, inside and out. -/
inductive Value.WellFormed : Value → Prop
  | plain {v : Value} (h : v.isPlain = true) : WellFormed v
  | set {refs : List InstanceRef} (h : refs.Nodup) : WellFormed (.set refs)
  | array {items : List Value} (hlength : items.length ≤ 2 ^ 24) (h : ∀ v ∈ items, WellFormed v) :
    WellFormed (.array items)
  | event {e : Event} (h : ∀ x ∈ e.arguments, WellFormed x.2) : WellFormed (.event e)

namespace Value.WellFormed

theorem nodup {refs : List InstanceRef} (h : WellFormed (.set refs)) : refs.Nodup := by
  cases h with
  | plain h => cases h
  | set h => exact h

theorem length_le {items : List Value} (h : WellFormed (.array items)) : items.length ≤ 2 ^ 24 := by
  cases h with
  | plain h => cases h
  | array hlength _ => exact hlength

theorem item {items : List Value} (h : WellFormed (.array items)) : ∀ v ∈ items, v.WellFormed := by
  cases h with
  | plain h => cases h
  | array _ h => exact h

theorem argument {e : Event} (h : WellFormed (.event e)) : ∀ x ∈ e.arguments, x.2.WellFormed := by
  cases h with
  | plain h => cases h
  | event h => exact h

/-- An array grows up to the index that is asked for, which is below the bound. -/
theorem growTo {items items' : List Value} {position : Nat} (h : WellFormed (.array items))
    (hgrow : Run.growTo items position = .ok items') : WellFormed (.array items') := by
  unfold Run.growTo at hgrow
  split at hgrow
  · cases hgrow
    exact h
  · rename_i hshort
    split at hgrow
    · rename_i hposition
      cases hgrow
      refine .array ?_ ?_
      · -- the new length is one more than the index
        have hbound : maxArrayLength = 2 ^ 24 := rfl
        rw [List.length_append, List.length_replicate]
        omega
      · refine List.forall_mem_append.mpr ⟨h.item, fun v hv => ?_⟩
        rw [List.eq_of_mem_replicate hv]
        exact .plain rfl
    · cases hgrow

theorem put {items : List Value} (h : WellFormed (.array items)) (position : Nat) {v : Value} (hv : v.WellFormed) :
    WellFormed (.array (items.set position v)) := by
  refine .array ?_ fun w hw => ?_
  · rw [List.length_set]
    exact h.length_le
  · rcases List.mem_or_eq_of_mem_set hw with hold | rfl
    · exact h.item w hold
    · exact hv

end Value.WellFormed

/-! ## What a population gives to a run -/

/-- Neither sets nor arrays nor events are kept in attributes. -/
theorem AttributeType.Admits.isPlain {t : AttributeType} {v : Value} (h : t.Admits v) : v.isPlain = true := by
  cases v with
  | set | array | event => cases t <;> cases h
  | null | boolean | integer | real | string | enumerator | ref | global => rfl

namespace Population

theorem isPlain_of_stored {ops : List Operation} {r : InstanceRef} {name : String} {v : Value}
    (h : (initial.afterAll ops).readAttribute r name = .ok (.stored v)) : v.isPlain = true := by
  obtain ⟨i, c, hi, hc, -, hv⟩ := readAttribute_stored h
  obtain ⟨hmem, -⟩ := mem_of_tracked hi
  obtain ⟨c', hc', hallowed⟩ := (conforms_afterAll ops i hmem).allowed
  obtain ⟨first, last, -, -, hadmits | rfl⟩ := hallowed name v hv
  · exact hadmits.isPlain
  · exact (last.admits_initialValue i.id).isPlain

theorem nodup_selectMany {ops : List Operation} {className : String} {refs : List InstanceRef}
    (h : (initial.afterAll ops).selectMany className = .ok refs) : refs.Nodup := by
  obtain ⟨c, -, h⟩ := ok_of_bind h
  cases h
  exact (nodup_refs_afterAll ops).sublist (List.filter_sublist.map _)

/-- The events in the queue carry well-formed values. -/
def QueuesWellFormed (p : Population) : Prop := ∀ e ∈ p.events, ∀ x ∈ e.arguments, x.2.WellFormed

end Population

/-- The population is one that operations lead to, with well-formed values in its queue. -/
def Population.Sound (p : Population) : Prop := (∃ ops, p = initial.afterAll ops) ∧ p.QueuesWellFormed

/-- The native operations are trusted with values: in sound populations and with well-formed arguments, they give
well-formed results and generate events with well-formed values. Nothing in a run checks this. -/
def Host.GivesWellFormed (host : Host) : Prop := host.Respects Population.Sound Value.WellFormed

namespace Run

/-- Values are well formed. -/
def wellFormed : Law where
  value := Value.WellFormed
  population := Population.Sound
  known _ := True
  fails _ _ _ _ := True
  plain _ := .plain
  nodup _ := .set
  sublist _ _ h hsub := .set (h.nodup.sublist hsub)
  empty := .array (Nat.zero_le _) nofun
  element _ h := h.item
  grow _ _ _ h := h.growTo
  put _ position _ h hv := h.put position hv
  argument _ h := h.argument
  event _ := .event
  after := by
    rintro p op ⟨⟨ops, rfl⟩, hevents⟩ hop
    refine ⟨⟨ops ++ [op], by simp [Population.afterAll]⟩, fun e he => ?_⟩
    rcases (Population.runsTo_after hop _).events e he with hold | hnew
    · exact hevents e hold
    · exact hnew
  stored := by
    rintro p r name v ⟨⟨ops, rfl⟩, -⟩ h
    exact .plain (Population.isPlain_of_stored h)
  instances := by
    rintro p className refs ⟨⟨ops, rfl⟩, -⟩ h
    exact .set (Population.nodup_selectMany h)
  action _ _ _ _ _ := trivial

end Run

/-! ## Runs -/

/-- The values of a state are well formed: what is bound, what was passed, what is computed and what is queued. -/
structure RunState.WellFormed (s : RunState) : Prop where
  bound : s.scopes.All Value.WellFormed
  passed : ∀ x ∈ s.activation.arguments, x.2.WellFormed
  computed : ∀ cell ∈ s.activation.derived, cell.result.WellFormed
  queued : s.population.QueuesWellFormed

/-- The value that a signal carries is well formed. -/
def Signal.WellFormed : Signal → Prop
  | returned v => v.WellFormed
  | normal | broke | continued | stopped => True

/-- The values of a moment are well formed. -/
def Run.Moment.WellFormed : Run.Moment → Prop
  | .state s => s.WellFormed
  | .result _ v => v.WellFormed
  | .ends _ signal s => signal.WellFormed ∧ s.WellFormed
  | .fault _ _ _ _ _ | .begins _ | .pass => True

theorem Run.Law.Holds.wellFormed {s : RunState} (h : Run.wellFormed.Holds s) : s.WellFormed :=
  ⟨h.scopes, h.arguments, h.derived, h.population.2⟩

/-- A run that starts with well-formed arguments, from a population that operations lead to and that has well-formed
events in its queue, holds only well-formed values at every moment, if the native operations that it can call give
well-formed values. Its result is well formed too, and so are the events that it leaves. -/
theorem Entry.wellFormed_throughout {host : Host} (hhost : host.GivesWellFormed) (ops : List Operation) (x : Entry)
    (harguments : ∀ y ∈ x.arguments, y.2.WellFormed) (hqueued : (Population.initial.afterAll ops).QueuesWellFormed) :
    (∀ m ∈ x.moments host (Population.initial.afterAll ops), m.WellFormed) ∧
    ∀ r, x.run host (Population.initial.afterAll ops) = some r → r.value.WellFormed ∧
      r.population.QueuesWellFormed ∧ ∃ s, Run.Leads (x.state (Population.initial.afterAll ops))
        (x.moments host (Population.initial.afterAll ops)) s ∧ s.WellFormed ∧ r.population = s.population := by
  have hgoverns : Run.wellFormed.Governs host Run.plenty :=
    Run.upholds_run (L := Run.wellFormed) hhost (fun _ _ _ _ _ => trivial) Run.plenty
  obtain ⟨hfits, hresult⟩ :=
    upheld (L := Run.wellFormed) hhost hgoverns (fun _ _ => trivial) ⟨⟨ops, rfl⟩, hqueued⟩ harguments
  refine ⟨fun m hm => ?_, fun r hr => ?_⟩
  · have hm := hfits m hm
    cases m with
    | state s => exact Run.Law.Holds.wellFormed hm
    | result a v => exact hm
    | ends st signal s =>
      refine ⟨?_, Run.Law.Holds.wellFormed hm.2⟩
      cases signal with
      | returned v => exact hm.1
      | normal | broke | continued | stopped => trivial
    | fault | begins | pass => trivial
  · obtain ⟨hvalue, s, hleads, hholds, hpopulation, -⟩ := hresult r hr
    rw [hpopulation]
    exact ⟨hvalue, hholds.wellFormed.queued, s, hleads, hholds.wellFormed, rfl⟩

/-- Two dogs, and the function `all`, which is a native operation. -/
def kennelHistory : List Operation :=
  [.defineClass "Dog" [], .create "Dog", .create "Dog", .defineFunction "all" (.native "all")]

/-- A native operation that returns all dogs, after it has created one more and told the class of those before. -/
def allDogs : Native := fun p _ _ =>
  match p.selectMany "Dog" with
  | .ok dogs => ⟨[.create "Dog", .generate ⟨"count", none, [("dogs", .set dogs)], .ofClass "Dog"⟩], .ok (.set dogs)⟩
  | .error e => ⟨[], .error e⟩

/-- A host that has this operation only. -/
def kennelHost : Host := ⟨.off, fun _ => allDogs⟩

theorem givesWellFormed_kennelHost : kennelHost.GivesWellFormed := by
  rintro name p receiver arguments ⟨⟨ops, rfl⟩, -⟩ -
  show (∀ q ∈ (allDogs _ receiver arguments).requests, _) ∧ ∀ v, (allDogs _ receiver arguments).result = _ → _
  unfold allDogs
  cases hdogs : (Population.initial.afterAll ops).selectMany "Dog" with
  | ok dogs =>
    have hset : Value.WellFormed (.set dogs) := .set (Population.nodup_selectMany hdogs)
    refine ⟨List.forall_mem_cons.mpr ⟨trivial, List.forall_mem_singleton.mpr ?_⟩, ?_⟩
    · exact List.forall_mem_singleton.mpr hset
    · rintro v ⟨⟩
      exact hset
  | error e => exact ⟨nofun, nofun⟩

/-- `found = param.found; n = found[2]; dogs = ::all(); generate walk(found: found, dogs: dogs) to Dog class;`
`return found;`, where an array grows because it is read. -/
def growingBody : Body :=
  ⟨.nowhere, .mk .nowhere [
    .assign .nowhere (.var .nowhere "found") (.parameter .nowhere "found" false),
    .assign .nowhere (.var .nowhere "n") (.index .nowhere (.var .nowhere "found") (.integer .nowhere 2)),
    .assign .nowhere (.var .nowhere "dogs") (.invoke .nowhere .function "all" []),
    .generate .nowhere ⟨"walk", none, [.mk .nowhere "found" (.var .nowhere "found"),
      .mk .nowhere "dogs" (.var .nowhere "dogs")]⟩ (.ofClass "Dog"),
    .returnValue .nowhere (some (.var .nowhere "found"))]⟩

/-- With an array that holds one set. -/
def growingEntry : Entry := .function "walk" growingBody [("found", .array [.set [⟨"Dog", 1⟩]])]

theorem Entry.wellFormed_throughout_growingEntry :
    (∃ r, growingEntry.run kennelHost (Population.initial.afterAll kennelHistory) = some r ∧
      r.value = .array [.set [⟨"Dog", 1⟩], .null, .null] ∧
      r.population.events.map EventOf.arguments = [[("dogs", .set [⟨"Dog", 1⟩, ⟨"Dog", 2⟩])],
        [("dogs", .set [⟨"Dog", 1⟩, ⟨"Dog", 2⟩]), ("found", r.value)]] ∧
      r.value.WellFormed ∧ r.population.QueuesWellFormed) ∧
    ∀ m ∈ growingEntry.moments kennelHost (Population.initial.afterAll kennelHistory), m.WellFormed := by
  have hset : Value.WellFormed (.set [⟨"Dog", 1⟩]) := .set (by decide)
  have hfound : Value.WellFormed (.array [.set [⟨"Dog", 1⟩]]) := .array (by decide) (List.forall_mem_singleton.mpr hset)
  have hqueued : (Population.initial.afterAll kennelHistory).QueuesWellFormed := nofun
  obtain ⟨hmoments, hresult⟩ := wellFormed_throughout givesWellFormed_kennelHost kennelHistory growingEntry
    (List.forall_mem_singleton.mpr hfound) hqueued
  have hrun := hresult _ rfl
  exact ⟨⟨_, rfl, rfl, rfl, hrun.1, hrun.2.1⟩, hmoments⟩

/-- `x = ::all(); return x;` -/
def relayingBody : Body :=
  ⟨.nowhere, .mk .nowhere [
    .assign .nowhere (.var .nowhere "x") (.invoke .nowhere .function "all" []),
    .returnValue .nowhere (some (.var .nowhere "x"))]⟩

/-- A host whose native operations return one dog twice. -/
def repeatingHost : Host := ⟨.off, fun _ _ _ _ => ⟨[], .ok (.set [⟨"Dog", 1⟩, ⟨"Dog", 1⟩])⟩⟩

/-- What a native operation returns is taken as it is: a set that holds an instance twice gets into the variables of a
body, and the body returns it. -/
theorem Entry.native_result_unchecked :
    ¬ ∀ (host : Host) (ops : List Operation) (x : Entry), (∀ y ∈ x.arguments, y.2.WellFormed) →
      (Population.initial.afterAll ops).QueuesWellFormed →
      ∀ r, x.run host (Population.initial.afterAll ops) = some r → r.value.WellFormed := by
  intro hall
  have hvalue : Value.WellFormed (.set [⟨"Dog", 1⟩, ⟨"Dog", 1⟩]) :=
    hall repeatingHost kennelHistory (.function "relay" relayingBody []) nofun nofun _ rfl
  exact absurd hvalue.nodup (by decide)

end ObjectAction
