/-
The associations of a population: the ones that were declared over its history, by single operations or
by loads that may have ended early. What a declaration adds is said once (`Declares`): at every point of a
history the legs and the link classes are those of the associations declared so far, in their order, and
every declared association fits the classes there are.
-/
import ObjectAction.Proofs.Population.History

namespace ObjectAction

open Model (AssociationDecl)

/-! ## What an association consists of -/

namespace Model.AssociationDecl

/-- The end on a side. -/
def «at» (d : AssociationDecl) : Side → End
  | .first => d.first
  | .second => d.second

/-- The legs of an association: itself, or one from each end to its link class. -/
def legs (d : AssociationDecl) : List Leg :=
  match d.link with
  | none => [⟨d.id, d.first, d.second⟩]
  | some link => [Population.linkLeg d.id link d.first d.second, Population.linkLeg d.id link d.second d.first]

/-- The way across the link class, if there is one. -/
def throughs (d : AssociationDecl) : List Through :=
  match d.link with
  | none => []
  | some link => [⟨d.id, d.first, d.second, link⟩]

/-- The classes at the ends are defined. Where they are the same, there is no link class, and distinct
phrases tell the ends apart. -/
structure FitsIn (d : AssociationDecl) (p : Population) : Prop where
  classes : ∀ side, Table.has p.classes (d.at side).className = true
  reflexive : d.first.className = d.second.className →
    d.link = none ∧ d.first.phrase.isSome ∧ d.second.phrase.isSome ∧ d.first.phrase ≠ d.second.phrase

theorem FitsIn.mono {d : AssociationDecl} {p q : Population} (h : d.FitsIn p)
    (hclasses : ∀ name, Table.has p.classes name = true → Table.has q.classes name = true) : d.FitsIn q :=
  ⟨fun side => hclasses _ (h.classes side), h.reflexive⟩

theorem id_of_mem_legs {d : AssociationDecl} {l : Leg} (h : l ∈ d.legs) : l.id = d.id := by
  unfold legs at h
  split at h
  · rw [List.mem_singleton.mp h]
  · rcases List.mem_pair.mp h with rfl | rfl <;> rfl

theorem id_of_mem_throughs {d : AssociationDecl} {t : Through} (h : t ∈ d.throughs) : t.id = d.id := by
  unfold throughs at h
  split at h
  · cases h
  · rw [List.mem_singleton.mp h]

end Model.AssociationDecl

namespace Population

/-! ## What a history declares -/

/-- The items that are taken before the first that fails. -/
def takenUntilError {α : Type} (step : Population → α → Except PopulationError Population) :
    Population → List α → List α
  | _, [] => []
  | p, a :: rest =>
    match step p a with
    | .ok q => a :: takenUntilError step q rest
    | .error _ => []

/-- The associations that a load declares: none if it ends among the classes. -/
def loaded (p : Population) (m : Model) : List AssociationDecl :=
  let p := m.enumerations.foldl (fun p e => p.defineEnumeration e.1 e.2) p
  match p.untilError declareClass m.classes with
  | (_, some _) => []
  | (p, none) =>
    takenUntilError declareAssociation { p with classes := (compileClasses p.classes m.classes).1 } m.associations

/-- The associations that an operation declares. -/
def declared (p : Population) : Operation → List AssociationDecl
  | .load m => p.loaded m
  | .defineAssociation id first second => takenUntilError declareAssociation p [⟨id, first, second, none⟩]
  | .defineLinkedAssociation id first second link =>
    takenUntilError declareAssociation p [⟨id, first, second, some link⟩]
  | _ => []

/-- The associations that a sequence of operations declares, in order. -/
def declaredAll (p : Population) : List Operation → List AssociationDecl
  | [] => []
  | op :: ops => p.declared op ++ (p.after op).declaredAll ops

/-! ## What a declaration adds -/

/-- From the first population to the second, exactly these associations were declared and no class was
lost. -/
structure Declares (p : Population) (ds : List AssociationDecl) (q : Population) : Prop where
  legs : q.legs = p.legs ++ ds.flatMap AssociationDecl.legs
  throughs : q.throughs = p.throughs ++ ds.flatMap AssociationDecl.throughs
  classes : ∀ name, Table.has p.classes name = true → Table.has q.classes name = true
  fits : ∀ d ∈ ds, d.FitsIn q

namespace Declares

variable {p q r : Population} {ds es : List AssociationDecl}

/-- Nothing is declared by a step that touches neither legs nor link classes. -/
theorem nothing (hlegs : q.legs = p.legs) (hthroughs : q.throughs = p.throughs)
    (hclasses : ∀ name, Table.has p.classes name = true → Table.has q.classes name = true) : Declares p [] q := by
  refine ⟨?_, ?_, hclasses, fun d hd => ?_⟩
  · rw [hlegs, List.flatMap_nil, List.append_nil]
  · rw [hthroughs, List.flatMap_nil, List.append_nil]
  · cases hd

theorem refl (p : Population) : Declares p [] p := nothing rfl rfl fun _ h => h

theorem trans (h₁ : Declares p ds q) (h₂ : Declares q es r) : Declares p (ds ++ es) r := by
  refine ⟨?_, ?_, fun name h => h₂.classes name (h₁.classes name h), fun d hd => ?_⟩
  · rw [h₂.legs, h₁.legs, List.flatMap_append, List.append_assoc]
  · rw [h₂.throughs, h₁.throughs, List.flatMap_append, List.append_assoc]
  · rcases List.mem_append.mp hd with hd | hd
    · exact (h₁.fits d hd).mono h₂.classes
    · exact h₂.fits d hd

/-- A step that fails declares nothing. -/
theorem orUnchanged {e : Except PopulationError Population} (h : ∀ q, e = .ok q → Declares p [] q) :
    Declares p [] (p.orUnchanged e) := by
  cases e with
  | ok q => exact h q rfl
  | error => exact refl p

end Declares

section

variable {p q : Population}

theorem has_of_classDef {name : String} {c : ClassDef} (h : p.classDef name = .ok c) :
    Table.has p.classes name = true := by
  unfold classDef at h
  unfold Table.has
  cases hv : Table.value? p.classes name with
  | none => rw [hv] at h; cases h
  | some c => rfl

theorem classDef_of_has {name : String} (h : Table.has p.classes name = true) : ∃ c, p.classDef name = .ok c := by
  unfold Table.has at h
  obtain ⟨c, hc⟩ := Option.isSome_iff_exists.mp h
  refine ⟨c, ?_⟩
  unfold classDef
  rw [hc]

theorem declares_defineAssociation {id : String} {first second : End}
    (h : p.defineAssociation id first second = .ok q) : Declares p [⟨id, first, second, none⟩] q := by
  obtain ⟨_, hfirst, h⟩ := ok_of_bind h
  obtain ⟨_, hsecond, h⟩ := ok_of_bind h
  split at h
  · cases h
  · rename_i hguard
    cases h
    refine ⟨by simp [AssociationDecl.legs], by simp [AssociationDecl.throughs], fun _ h => h, fun d hd => ?_⟩
    rw [List.mem_singleton.mp hd]
    refine ⟨fun side => ?_, fun heq => ?_⟩
    · cases side with
      | first => exact has_of_classDef hfirst
      | second => exact has_of_classDef hsecond
    · simp only [not_and, not_or, Bool.not_eq_true, Option.isNone_eq_false_iff] at hguard
      obtain ⟨h₁, h₂, h₃⟩ := hguard heq
      exact ⟨rfl, h₁, h₂, h₃⟩

theorem declares_defineLinkedAssociation {id link : String} {first second : End}
    (h : p.defineLinkedAssociation id first second link = .ok q) :
    Declares p [⟨id, first, second, some link⟩] q := by
  obtain ⟨_, hfirst, h⟩ := ok_of_bind h
  obtain ⟨_, hsecond, h⟩ := ok_of_bind h
  obtain ⟨_, _, h⟩ := ok_of_bind h
  split at h
  · cases h
  · rename_i hdistinct
    cases h
    refine ⟨by simp [AssociationDecl.legs], by simp [AssociationDecl.throughs], fun _ h => h, fun d hd => ?_⟩
    rw [List.mem_singleton.mp hd]
    refine ⟨fun side => ?_, fun heq => absurd heq hdistinct⟩
    cases side with
    | first => exact has_of_classDef hfirst
    | second => exact has_of_classDef hsecond

theorem declares_declareAssociation {d : AssociationDecl} (h : p.declareAssociation d = .ok q) :
    Declares p [d] q := by
  obtain ⟨id, first, second, link⟩ := d
  cases link with
  | none => exact declares_defineAssociation h
  | some link => exact declares_defineLinkedAssociation h

/-- One association after another, up to the first that cannot be declared. -/
theorem declares_untilError (p : Population) (ds : List AssociationDecl) :
    Declares p (takenUntilError declareAssociation p ds) (p.untilError declareAssociation ds).1 := by
  induction ds generalizing p with
  | nil => exact .refl p
  | cons d ds ih =>
    unfold untilError takenUntilError
    cases h : p.declareAssociation d with
    | ok q => exact (declares_declareAssociation h).trans (ih q)
    | error e => exact .refl p

theorem declares_defineClass {name : String} {attributes : List (String × AttributeType)}
    (h : p.defineClass name attributes = .ok q) : Declares p [] q := by
  unfold defineClass at h
  split at h
  · cases h
  · cases h
    refine .nothing rfl rfl fun other hother => ?_
    rw [Table.has_put, hother, Bool.or_true]

theorem declares_declareClasses (p : Population) (ds : List Model.ClassDecl) :
    Declares p [] (p.untilError declareClass ds).1 :=
  untilError_related (R := fun p q => Declares p [] q) .refl (fun h₁ h₂ => h₁.trans h₂) declareClass
    declares_defineClass p ds

theorem has_compileClasses {name : String} (ds : List Model.ClassDecl) (t : Table ClassDef)
    (h : Table.has t name = true) : Table.has (compileClasses t ds).1 name = true := by
  induction ds generalizing t with
  | nil => exact h
  | cons d ds ih =>
    unfold compileClasses
    split
    · exact ih t h
    · refine ih _ ?_
      rw [Table.has_put, h, Bool.or_true]

theorem loaded_eq (p : Population) (m : Model) :
    p.loaded m = match (p.enumerated m).untilError declareClass m.classes with
      | (_, some _) => []
      | (q, none) => takenUntilError declareAssociation (q.compiled m) m.associations := by
  unfold loaded
  rw [defineEnumerations_eq]
  rfl

/-- A load declares the associations up to the first that fails, and none if a class fails. -/
theorem declares_load (p : Population) (m : Model) : Declares p (p.loaded m) (p.load m).1 := by
  have hstart : Declares p [] (p.enumerated m) := .nothing rfl rfl fun _ h => h
  have hclasses := hstart.trans (declares_declareClasses _ m.classes)
  have hassociations : ∀ q, Declares p [] q →
      Declares p (takenUntilError declareAssociation (q.compiled m) m.associations)
        ((q.compiled m).untilError declareAssociation m.associations).1 := by
    intro q hq
    have hcompiled : Declares q [] (q.compiled m) := .nothing rfl rfl fun _ h => has_compileClasses m.classes _ h
    exact (hq.trans hcompiled).trans (declares_untilError _ _)
  rw [loaded_eq]
  have h := loads_load p m
  generalize p.load m = result at h ⊢
  cases h with
  | classFails h₁ =>
    rw [h₁] at hclasses ⊢
    exact hclasses
  | associationFails h₁ h₂ =>
    rw [h₁] at hclasses ⊢
    have hdeclares := hassociations _ hclasses
    rw [h₂] at hdeclares
    exact hdeclares
  | @done q r h₁ h₂ =>
    rw [h₁] at hclasses ⊢
    have hdeclares := hassociations _ hclasses
    rw [h₂] at hdeclares
    -- the functions, entities and ports that come last are no part of an association
    have hrest : Declares r [] { r with
        functions := (compile id r.functions m.functions).1
        entities := (compileOwners r.entities m.entities).1
        ports := (compileOwners r.ports m.ports).1 } := .nothing rfl rfl fun _ h => h
    have hall := hdeclares.trans hrest
    rw [List.append_nil] at hall
    exact hall

theorem declares_single {d : AssociationDecl} {step : Except PopulationError Population}
    (hstep : step = p.declareAssociation d) :
    Declares p (takenUntilError declareAssociation p [d]) (p.orUnchanged step) := by
  have h := declares_untilError p [d]
  rw [hstep]
  unfold untilError at h
  cases hd : p.declareAssociation d with
  | ok q => rw [hd] at h; exact h
  | error e => rw [hd] at h; exact h

theorem declares_after (p : Population) (op : Operation) : Declares p (p.declared op) (p.after op) := by
  cases op with
  | load m => exact declares_load p m
  | defineAssociation id first second => exact declares_single rfl
  | defineLinkedAssociation id first second link => exact declares_single rfl
  | defineClass => exact .orUnchanged fun q h => declares_defineClass h
  | defineFunction | defineBridge | definePortOperation | defineEnumeration | takeEvents =>
    exact .nothing rfl rfl fun _ h => h
  | create className =>
    refine .orUnchanged fun q h => ?_
    obtain ⟨attributes, rfl⟩ := create_ok h
    exact .nothing rfl rfl fun _ h => h
  | delete r =>
    refine .orUnchanged fun q h => ?_
    obtain rfl := delete_ok h
    exact .nothing rfl rfl fun _ h => h
  | relate a b id phrase =>
    refine .orUnchanged fun q h => ?_
    obtain ⟨r, _, _, _, _, _, _, rfl⟩ := relate_ok h
    exact .nothing rfl rfl fun _ h => h
  | unrelate a b id phrase =>
    refine .orUnchanged fun q h => ?_
    obtain ⟨r, _, _, rfl⟩ := unrelate_ok h
    exact .nothing rfl rfl fun _ h => h
  | writeAttribute r name v =>
    refine .orUnchanged fun q h => ?_
    obtain ⟨w, rfl⟩ := writeAttribute_ok h
    exact .nothing rfl rfl fun _ h => h
  | generate e =>
    refine .orUnchanged fun q h => ?_
    obtain rfl := generate_ok h
    exact .nothing rfl rfl fun _ h => h

theorem declares_afterAll (p : Population) (ops : List Operation) :
    Declares p (p.declaredAll ops) (p.afterAll ops) := by
  induction ops generalizing p with
  | nil => exact .refl p
  | cons op ops ih => exact (declares_after p op).trans (ih (p.after op))

end

end Population

end ObjectAction
