/-
Histories of a population: the operations that can change it, in any order, with any arguments, whether
they succeed or fail. What an operation can do to the legs, the links and the instances is said once
(`Change`), and everything that holds throughout a history is derived from that.
-/
import ObjectAction.Model.Load
import ObjectAction.Population.Native
import Mathlib.Tactic

namespace ObjectAction

/-- An operation that can change a population, with its arguments. -/
inductive Operation where
  | load (model : Model)
  | defineClass (name : String) (attributes : List (String × AttributeType))
  | defineAssociation (id : String) (first second : End)
  | defineLinkedAssociation (id : String) (first second : End) (link : String)
  | defineFunction (name : String) (action : Action)
  | defineBridge (entity name : String) (action : Action)
  | definePortOperation (port name : String) (action : Action)
  | defineEnumeration (name : String) (enumerators : List String)
  | create (className : String)
  | delete (r : InstanceRef)
  | relate (a b : InstanceRef) (id : String) (phrase : Option String)
  | unrelate (a b : InstanceRef) (id : String) (phrase : Option String)
  | writeAttribute (r : InstanceRef) (name : String) (v : Value)
  | generate (e : Event)
  | takeEvents

namespace Population

/-- The population after an operation. Only a load that fails can have changed something. -/
def after (p : Population) : Operation → Population
  | .load m => (p.load m).1
  | .defineClass name attributes => p.orUnchanged (p.defineClass name attributes)
  | .defineAssociation id first second => p.orUnchanged (p.defineAssociation id first second)
  | .defineLinkedAssociation id first second link =>
    p.orUnchanged (p.defineLinkedAssociation id first second link)
  | .defineFunction name action => p.defineFunction name action
  | .defineBridge entity name action => p.defineBridge entity name action
  | .definePortOperation port name action => p.definePortOperation port name action
  | .defineEnumeration name enumerators => p.defineEnumeration name enumerators
  | .create className => p.orUnchanged ((p.create className).map Prod.snd)
  | .delete r => p.orUnchanged (p.delete r)
  | .relate a b id phrase => p.orUnchanged (p.relate a b id phrase)
  | .unrelate a b id phrase => p.orUnchanged (p.unrelate a b id phrase)
  | .writeAttribute r name v => p.orUnchanged (p.writeAttribute r name v)
  | .generate e => p.orUnchanged (p.generate e)
  | .takeEvents => p.takeEvents.2

/-- The population after a sequence of operations. -/
def afterAll (p : Population) (ops : List Operation) : Population := ops.foldl after p

/-- The instance with that class and id exists. -/
def Tracks (p : Population) (r : InstanceRef) : Prop := ∃ i, p.tracked r = .ok i

theorem tracks_iff {p : Population} {r : InstanceRef} : p.Tracks r ↔ r ∈ p.instances.map Instance.ref := by
  unfold Tracks tracked
  rw [List.mem_map]
  constructor
  · rintro ⟨i, hi⟩
    cases hf : p.instances.find? (·.ref = r) with
    | none => rw [hf] at hi; cases hi
    | some j =>
      have hj := List.find?_some hf
      exact ⟨j, List.mem_of_find?_eq_some hf, of_decide_eq_true hj⟩
  · rintro ⟨i, hi, rfl⟩
    cases hf : p.instances.find? (·.ref = i.ref) with
    | none =>
      exact absurd (decide_eq_true rfl) (List.find?_eq_none.mp hf i hi)
    | some j => exact ⟨j, rfl⟩

theorem value?_of_classDef {p : Population} {name : String} {c : ClassDef} (h : p.classDef name = .ok c) :
    Table.value? p.classes name = some c := by
  unfold classDef at h
  split at h
  · rename_i hc
    cases h
    exact hc
  · cases h

/-! ## What a single operation does when it succeeds -/

/-- A sequence of two steps succeeds only if both do. -/
theorem ok_of_bind {ε α β : Type} {x : Except ε α} {f : α → Except ε β} {b : β} (h : (x >>= f) = .ok b) :
    ∃ a, x = .ok a ∧ f a = .ok b := by
  cases x with
  | ok a => exact ⟨a, rfl, h⟩
  | error e => cases h

section

variable {p q : Population}

theorem create_ok {className : String} (h : (p.create className).map Prod.snd = .ok q) :
    ∃ attributes, q = { p with
      instances := p.instances ++ [⟨className, p.nextId, attributes⟩], nextId := p.nextId + 1 } := by
  cases hc : p.create className with
  | error e => rw [hc] at h; cases h
  | ok rq =>
    rw [hc] at h
    obtain ⟨c, _, hcreate⟩ := ok_of_bind hc
    cases hcreate
    cases h
    exact ⟨_, rfl⟩

theorem delete_ok {r : InstanceRef} (h : p.delete r = .ok q) :
    q = { p with
      instances := p.instances.filter (·.ref ≠ r), links := p.links.filter (!·.touches r) } := by
  obtain ⟨_, _, h⟩ := ok_of_bind h
  cases h
  rfl

theorem relate_ok {a b : InstanceRef} {id : String} {phrase : Option String}
    (h : p.relate a b id phrase = .ok q) :
    ∃ r, p.Tracks a ∧ p.Tracks b ∧ p.reading a.className b.className id phrase = .ok r ∧
      (∀ l ∈ p.links, r.joins a b l = false) ∧
      (r.target.many = false → ∀ l ∈ p.links, r.leaves a l = false) ∧
      (r.source.many = false → ∀ l ∈ p.links, r.arrives b l = false) ∧
      q = { p with links := p.links ++ [r.link a b] } := by
  obtain ⟨i, ha, h⟩ := ok_of_bind h
  obtain ⟨j, hb, h⟩ := ok_of_bind h
  obtain ⟨r, hr, h⟩ := ok_of_bind h
  split at h
  · cases h
  · rename_i hroom
    cases h
    simp only [not_or, not_and, Bool.not_eq_true, List.any_eq_false, Bool.not_eq_eq_eq_not, Bool.not_true] at hroom
    exact ⟨r, ⟨i, ha⟩, ⟨j, hb⟩, hr, hroom.1, hroom.2.1, hroom.2.2, rfl⟩

theorem unrelate_ok {a b : InstanceRef} {id : String} {phrase : Option String}
    (h : p.unrelate a b id phrase = .ok q) :
    ∃ r, p.reading a.className b.className id phrase = .ok r ∧ p.links.any (r.joins a b) = true ∧
      q = { p with links := p.links.eraseP (r.joins a b) } := by
  obtain ⟨_, _, h⟩ := ok_of_bind h
  obtain ⟨_, _, h⟩ := ok_of_bind h
  obtain ⟨r, hr, h⟩ := ok_of_bind h
  split at h
  · rename_i hany
    cases h
    exact ⟨r, hr, hany, rfl⟩
  · cases h

theorem writeAttribute_ok {r : InstanceRef} {name : String} {v : Value}
    (h : p.writeAttribute r name v = .ok q) : ∃ w, q = p.setAttribute r name w := by
  obtain ⟨i, _, h⟩ := ok_of_bind h
  obtain ⟨c, _, h⟩ := ok_of_bind h
  split at h
  · cases h
  · split at h
    · cases h
    · split at h
      · cases h
      · cases h
        exact ⟨_, rfl⟩

theorem generate_ok {e : Event} (h : p.generate e = .ok q) : q = { p with events := p.events ++ [e] } := by
  unfold generate at h
  cases hr : e.recipient with
  | ofClass | creator | receiver =>
    rw [hr] at h
    obtain ⟨_, _, h⟩ := ok_of_bind h
    cases h
    rfl

end

/-! ## What an operation can do -/

/-- The second population has all legs of the first and perhaps more, the same links, instances of the same
classes and ids, and the same id to give next. -/
structure Grows (p q : Population) : Prop where
  legs : p.legs <+: q.legs
  links : q.links = p.links
  refs : q.instances.map Instance.ref = p.instances.map Instance.ref
  nextId : q.nextId = p.nextId

theorem Grows.refl (p : Population) : Grows p p := ⟨List.prefix_refl _, rfl, rfl, rfl⟩

theorem Grows.trans {p q r : Population} (h₁ : Grows p q) (h₂ : Grows q r) : Grows p r :=
  ⟨h₁.legs.trans h₂.legs, h₂.links.trans h₁.links, h₂.refs.trans h₁.refs, h₂.nextId.trans h₁.nextId⟩

/-- The reading is one of a leg of the population, from the class of `a` to the class of `b`. -/
structure HasReading (p : Population) (r : Reading) (a b : InstanceRef) : Prop where
  leg : p.legs[r.index]? = some r.leg
  source : r.source.className = a.className
  target : r.target.className = b.className

/-- What an operation can do to the legs, the links and the instances. -/
inductive Change (p : Population) : Population → Prop
  | grow {q : Population} (h : Grows p q) : Change p q
  | create (className : String) (attributes : Table Value) :
    Change p { p with
      instances := p.instances ++ [⟨className, p.nextId, attributes⟩], nextId := p.nextId + 1 }
  | delete (r : InstanceRef) :
    Change p { p with
      instances := p.instances.filter (·.ref ≠ r), links := p.links.filter (!·.touches r) }
  | relate {r : Reading} {a b : InstanceRef} (ha : p.Tracks a) (hb : p.Tracks b) (hr : p.HasReading r a b)
    (hnew : ∀ l ∈ p.links, r.joins a b l = false)
    (hleave : r.target.many = false → ∀ l ∈ p.links, r.leaves a l = false)
    (harrive : r.source.many = false → ∀ l ∈ p.links, r.arrives b l = false) :
    Change p { p with links := p.links ++ [r.link a b] }
  | unrelate (q : Link → Bool) : Change p { p with links := p.links.eraseP q }

theorem Change.refl (p : Population) : Change p p := .grow (.refl p)

/-- What comes after a step that fails or does one of these things is one of these things. -/
theorem Change.orUnchanged {p : Population} {e : Except PopulationError Population}
    (h : ∀ q, e = .ok q → Change p q) : Change p (p.orUnchanged e) := by
  cases e with
  | ok q => exact h q rfl
  | error => exact .refl p

section

variable {p q : Population}

theorem grows_defineClass {name : String} {attributes : List (String × AttributeType)}
    (h : p.defineClass name attributes = .ok q) : Grows p q := by
  unfold defineClass at h
  split at h
  · cases h
  · cases h
    exact ⟨List.prefix_refl _, rfl, rfl, rfl⟩

theorem grows_defineAssociation {id : String} {first second : End}
    (h : p.defineAssociation id first second = .ok q) : Grows p q := by
  obtain ⟨_, _, h⟩ := ok_of_bind h
  obtain ⟨_, _, h⟩ := ok_of_bind h
  split at h
  · cases h
  · cases h
    exact ⟨List.prefix_append _ _, rfl, rfl, rfl⟩

theorem grows_defineLinkedAssociation {id link : String} {first second : End}
    (h : p.defineLinkedAssociation id first second link = .ok q) : Grows p q := by
  obtain ⟨_, _, h⟩ := ok_of_bind h
  obtain ⟨_, _, h⟩ := ok_of_bind h
  obtain ⟨_, _, h⟩ := ok_of_bind h
  split at h
  · cases h
  · cases h
    exact ⟨List.prefix_append _ _, rfl, rfl, rfl⟩

theorem grows_writeAttribute {r : InstanceRef} {name : String} {v : Value}
    (h : p.writeAttribute r name v = .ok q) : Grows p q := by
  obtain ⟨w, rfl⟩ := writeAttribute_ok h
  refine ⟨List.prefix_refl _, rfl, ?_, rfl⟩
  unfold setAttribute
  rw [List.map_map]
  refine List.map_congr_left fun i _ => ?_
  show Instance.ref (if i.ref = r then _ else i) = i.ref
  split
  · rfl
  · rfl

theorem grows_generate {e : Event} (h : p.generate e = .ok q) : Grows p q := by
  obtain rfl := generate_ok h
  exact ⟨List.prefix_refl _, rfl, rfl, rfl⟩

/-- What relates each population to the one after a step relates the first to the one that the steps before an
error make of it. -/
theorem untilError_related {α : Type} {R : Population → Population → Prop} (hrefl : ∀ p, R p p)
    (htrans : ∀ {p q r}, R p q → R q r → R p r) (step : Population → α → Except PopulationError Population)
    (hstep : ∀ {p q : Population} {a : α}, step p a = .ok q → R p q) (p : Population) (as : List α) :
    R p (p.untilError step as).1 := by
  induction as generalizing p with
  | nil => exact hrefl p
  | cons a as ih =>
    unfold untilError
    cases h : step p a with
    | ok q => exact htrans (hstep h) (ih q)
    | error e => exact hrefl p

theorem grows_declareClass {d : Model.ClassDecl} (h : p.declareClass d = .ok q) : Grows p q :=
  grows_defineClass h

theorem grows_declareAssociation {d : Model.AssociationDecl} (h : p.declareAssociation d = .ok q) :
    Grows p q := by
  unfold declareAssociation at h
  split at h
  · exact grows_defineLinkedAssociation h
  · exact grows_defineAssociation h

end

/-! ## What a load does -/

theorem defineEnumerations_eq (p : Population) (es : Table (List String)) :
    es.foldl (fun p e => p.defineEnumeration e.1 e.2) p =
      { p with enumerations := Table.putAll p.enumerations es } := by
  induction es generalizing p with
  | nil => rfl
  | cons e es ih => exact ih _

/-- With the enumerations that a model declares. -/
def enumerated (p : Population) (m : Model) : Population :=
  { p with enumerations := Table.putAll p.enumerations m.enumerations }

/-- With the bodies of the classes that a model declares, which are defined by then. -/
def compiled (p : Population) (m : Model) : Population :=
  { p with classes := (compileClasses p.classes m.classes).1 }

/-- How a load goes: it ends with a class or with an association that cannot be defined, or all is defined. -/
inductive Loads (p : Population) (m : Model) : Population × Except PopulationError (List RejectedBody) → Prop
  | classFails {q : Population} {e : PopulationError}
    (hclasses : (p.enumerated m).untilError declareClass m.classes = (q, some e)) : Loads p m (q, .error e)
  | associationFails {q r : Population} {e : PopulationError}
    (hclasses : (p.enumerated m).untilError declareClass m.classes = (q, none))
    (hassociations : (q.compiled m).untilError declareAssociation m.associations = (r, some e)) :
    Loads p m (r, .error e)
  | done {q r : Population}
    (hclasses : (p.enumerated m).untilError declareClass m.classes = (q, none))
    (hassociations : (q.compiled m).untilError declareAssociation m.associations = (r, none)) :
    Loads p m
      ({ r with
          functions := (compile id r.functions m.functions).1
          entities := (compileOwners r.entities m.entities).1
          ports := (compileOwners r.ports m.ports).1 },
        .ok ((compileClasses q.classes m.classes).2 ++ (compile id r.functions m.functions).2 ++
          (compileOwners r.entities m.entities).2 ++ (compileOwners r.ports m.ports).2))

theorem loads_load (p : Population) (m : Model) : Loads p m (p.load m) := by
  have henumerated : m.enumerations.foldl (fun p e => p.defineEnumeration e.1 e.2) p = p.enumerated m :=
    defineEnumerations_eq ..
  simp only [load, henumerated]
  rcases hclasses : (p.enumerated m).untilError declareClass m.classes with ⟨q, _ | e⟩
  · simp only [← compiled.eq_def]
    rcases hassociations : (q.compiled m).untilError declareAssociation m.associations with ⟨r, _ | e⟩
    · exact .done hclasses hassociations
    · exact .associationFails hclasses hassociations
  · exact .classFails hclasses

/-- What relates each population to the one after a step of a load relates the first to what the load makes of it,
wherever it ends. -/
theorem load_related {R : Population → Population → Prop} (hrefl : ∀ p, R p p)
    (htrans : ∀ {p q r}, R p q → R q r → R p r) (m : Model) (henumerated : ∀ p, R p (p.enumerated m))
    (hclass : ∀ {p q : Population} {d : Model.ClassDecl}, p.declareClass d = .ok q → R p q)
    (hcompiled : ∀ p, R p (p.compiled m))
    (hassociation : ∀ {p q : Population} {d : Model.AssociationDecl}, p.declareAssociation d = .ok q → R p q)
    (hactions : ∀ (p : Population) functions entities ports, R p { p with functions, entities, ports })
    (p : Population) : R p (p.load m).1 := by
  have hclasses := htrans (henumerated p) (untilError_related hrefl htrans declareClass hclass _ m.classes)
  have hassociations : ∀ q, R p q → R p ((q.compiled m).untilError declareAssociation m.associations).1 :=
    fun q hq => htrans (htrans hq (hcompiled q))
      (untilError_related hrefl htrans declareAssociation hassociation _ m.associations)
  have h := loads_load p m
  generalize p.load m = result at h ⊢
  cases h with
  | classFails h₁ =>
    rw [h₁] at hclasses
    exact hclasses
  | associationFails h₁ h₂ =>
    rw [h₁] at hclasses
    have hend := hassociations _ hclasses
    rw [h₂] at hend
    exact hend
  | done h₁ h₂ =>
    rw [h₁] at hclasses
    have hend := hassociations _ hclasses
    rw [h₂] at hend
    exact htrans hend (hactions ..)

/-- A load only adds definitions, wherever it ends. -/
theorem grows_load (p : Population) (m : Model) : Grows p (p.load m).1 :=
  load_related Grows.refl Grows.trans m (fun _ => ⟨List.prefix_refl _, rfl, rfl, rfl⟩) grows_declareClass
    (fun _ => ⟨List.prefix_refl _, rfl, rfl, rfl⟩) grows_declareAssociation
    (fun _ _ _ _ => ⟨List.prefix_refl _, rfl, rfl, rfl⟩) p

/-! ## Readings of a relationship -/

theorem mem_readings {p : Population} {source target id : String} {r : Reading} :
    r ∈ p.readings source target id ↔ p.legs[r.index]? = some r.leg ∧ r.leg.id = id ∧
      r.source.className = source ∧ r.target.className = target := by
  unfold readings
  rw [List.mem_flatMap]
  constructor
  · rintro ⟨⟨leg, index⟩, hleg, hr⟩
    replace hr : r ∈ if leg.id = id then readingsOfLeg source target leg index else [] := hr
    split at hr
    · rename_i hid
      obtain ⟨hmem, hclasses⟩ := List.mem_filter.mp hr
      obtain ⟨side, _, rfl⟩ := List.mem_map.mp hmem
      exact ⟨List.mem_zipIdx_iff_getElem?.mp hleg, hid, of_decide_eq_true hclasses⟩
    · cases hr
  · rintro ⟨hleg, hid, hclasses⟩
    refine ⟨(r.leg, r.index), List.mem_zipIdx_iff_getElem?.mpr hleg, ?_⟩
    show r ∈ if r.leg.id = id then readingsOfLeg source target r.leg r.index else []
    rw [if_pos hid]
    refine List.mem_filter.mpr ⟨List.mem_map.mpr ⟨r.side, ?_, rfl⟩, decide_eq_true hclasses⟩
    cases r.side <;> simp

theorem mem_of_reading {p : Population} {source target id : String} {phrase : Option String} {r : Reading}
    (h : p.reading source target id phrase = .ok r) :
    r ∈ p.readings source target id ∧ (phrase = none ∨ r.target.phrase = phrase) := by
  dsimp only [reading] at h
  split at h
  · rename_i r' hfound
    cases h
    have hmem : r ∈ [r] := List.mem_singleton.mpr rfl
    rw [← hfound] at hmem
    obtain ⟨hr, hphrase⟩ := List.mem_filter.mp hmem
    rw [decide_eq_true_eq, Option.isNone_iff_eq_none] at hphrase
    exact ⟨hr, hphrase⟩
  · cases h
  · cases h

theorem hasReading_of_reading {p : Population} {a b : InstanceRef} {id : String} {phrase : Option String}
    {r : Reading} (h : p.reading a.className b.className id phrase = .ok r) : p.HasReading r a b := by
  obtain ⟨hr, _⟩ := mem_of_reading h
  obtain ⟨hleg, _, hsource, htarget⟩ := mem_readings.mp hr
  exact ⟨hleg, hsource, htarget⟩

/-! ## Every operation does one of these things -/

theorem change_create {p q : Population} {className : String}
    (h : (p.create className).map Prod.snd = .ok q) : Change p q := by
  obtain ⟨attributes, rfl⟩ := create_ok h
  exact .create className attributes

theorem change_delete {p q : Population} {r : InstanceRef} (h : p.delete r = .ok q) : Change p q := by
  obtain rfl := delete_ok h
  exact .delete r

theorem change_relate {p q : Population} {a b : InstanceRef} {id : String} {phrase : Option String}
    (h : p.relate a b id phrase = .ok q) : Change p q := by
  obtain ⟨r, ha, hb, hr, hnew, hleave, harrive, rfl⟩ := relate_ok h
  exact .relate ha hb (hasReading_of_reading hr) hnew hleave harrive

theorem change_unrelate {p q : Population} {a b : InstanceRef} {id : String} {phrase : Option String}
    (h : p.unrelate a b id phrase = .ok q) : Change p q := by
  obtain ⟨r, _, _, rfl⟩ := unrelate_ok h
  exact .unrelate (r.joins a b)

theorem change_after (p : Population) (op : Operation) : Change p (p.after op) := by
  cases op with
  | load m => exact .grow (grows_load p m)
  | defineClass => exact .orUnchanged fun q h => .grow (grows_defineClass h)
  | defineAssociation => exact .orUnchanged fun q h => .grow (grows_defineAssociation h)
  | defineLinkedAssociation => exact .orUnchanged fun q h => .grow (grows_defineLinkedAssociation h)
  | defineFunction | defineBridge | definePortOperation | defineEnumeration | takeEvents =>
    exact .grow ⟨List.prefix_refl _, rfl, rfl, rfl⟩
  | create className => exact .orUnchanged fun q h => change_create h
  | delete r => exact .orUnchanged fun q h => change_delete h
  | relate a b id phrase => exact .orUnchanged fun q h => change_relate h
  | unrelate a b id phrase => exact .orUnchanged fun q h => change_unrelate h
  | writeAttribute => exact .orUnchanged fun q h => .grow (grows_writeAttribute h)
  | generate => exact .orUnchanged fun q h => .grow (grows_generate h)

/-- What holds at first and is kept by every operation holds after every history. -/
theorem afterAll_of_after {P : Population → Prop} (h₀ : P initial) (hstep : ∀ p op, P p → P (p.after op))
    (ops : List Operation) : P (initial.afterAll ops) := by
  have hrun : ∀ p, P p → P (p.afterAll ops) := by
    induction ops with
    | nil => exact fun p hp => hp
    | cons op ops ih => exact fun p hp => ih _ (hstep p op hp)
  exact hrun initial h₀

theorem afterAll_induction {P : Population → Prop} (h₀ : P initial)
    (hstep : ∀ p q, Change p q → P p → P q) (ops : List Operation) : P (initial.afterAll ops) :=
  afterAll_of_after h₀ (fun p op => hstep p _ (change_after p op)) ops

end Population

end ObjectAction
