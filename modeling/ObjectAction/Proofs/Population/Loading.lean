/-
What a load makes of a model. It succeeds just if the model fits the population. Then it gives back every body that does
not parse, and no other; and whatever action is looked for by its name, the last body of that name that parses is found,
or else what was found before. So a body that is rejected hides none, neither of the model nor of the population.

Main statement: `load_bodies`.
-/
import ObjectAction.Proofs.Population.Attributes
import ObjectAction.Proofs.Population.Failure

namespace ObjectAction

open Model (BodyDecl ClassDecl AssociationDecl OwnerDecl)

/-! ## Named bodies -/

namespace Model.BodyDecl

/-- The action that a body is under a label, if it parses. -/
def action? (label : String → String) (d : BodyDecl) : Option Action :=
  match parse d.text with
  | .ok body => some (.written (label d.name) body)
  | .error _ => none

/-- What is reported of a body under a label, if it does not parse. -/
def rejected? (label : String → String) (d : BodyDecl) : Option RejectedBody :=
  match parse d.text with
  | .ok _ => none
  | .error e => some ⟨label d.name, e⟩

/-- The last body of a name that parses. -/
def last (label : String → String) (name : String) (ds : List BodyDecl) : Option Action :=
  ds.reverse.findSome? fun d => if d.name = name then d.action? label else none

theorem last_append (label : String → String) (name : String) (ds es : List BodyDecl) :
    last label name (ds ++ es) = (last label name es).or (last label name ds) := by
  simp [last, List.findSome?_append]

theorem last_cons (label : String → String) (name : String) (d : BodyDecl) (ds : List BodyDecl) :
    last label name (d :: ds) = (last label name ds).or (if d.name = name then d.action? label else none) := by
  rw [← List.singleton_append, last_append]
  simp [last]

end Model.BodyDecl

open Model.BodyDecl (last)

theorem value?_compile (label : String → String) (t : Table Action) (ds : List BodyDecl) (name : String) :
    Table.value? (compile label t ds).1 name = (last label name ds).or (Table.value? t name) := by
  induction ds generalizing t with
  | nil => rfl
  | cons d ds ih =>
    rw [BodyDecl.last_cons, Option.or_assoc]
    unfold compile BodyDecl.action?
    cases parse d.text with
    | ok body =>
      dsimp only
      rw [ih]
      by_cases hn : d.name = name
      · rw [if_pos hn, ← hn, Table.value?_put_self]
        rfl
      · rw [if_neg hn, Table.value?_put_of_ne hn]
        rfl
    | error e =>
      dsimp only
      rw [ih, ite_self]
      rfl

theorem rejected_compile (label : String → String) (t : Table Action) (ds : List BodyDecl) :
    (compile label t ds).2 = ds.filterMap (BodyDecl.rejected? label) := by
  induction ds generalizing t with
  | nil => rfl
  | cons d ds ih =>
    unfold compile
    cases hd : parse d.text with
    | ok body =>
      have hnone : d.rejected? label = none := by simp [BodyDecl.rejected?, hd]
      rw [List.filterMap_cons_none hnone]
      exact ih _
    | error e =>
      have hsome : d.rejected? label = some ⟨label d.name, e⟩ := by simp [BodyDecl.rejected?, hd]
      rw [List.filterMap_cons_some hsome, ← ih t]

/-! ## Entities and ports -/

/-- How an operation of an external entity, a port or a class is labelled. -/
def ownerLabel (owner name : String) : String := s!"{owner}::{name}"

/-- The operations of an owner that do not parse. -/
def Model.OwnerDecl.rejected (d : OwnerDecl) : List RejectedBody :=
  d.operations.filterMap (BodyDecl.rejected? (ownerLabel d.name))

/-- The operations that are declared for an owner, also where it is declared more than once. -/
def operationsFor (owner : String) (ds : List OwnerDecl) : List BodyDecl :=
  (ds.filter (·.name = owner)).flatMap OwnerDecl.operations

theorem value?_compileOwners (t : Table (Table Action)) (ds : List OwnerDecl) (owner name : String) :
    Table.value? (Population.operationsOf (compileOwners t ds).1 owner) name =
      (last (ownerLabel owner) name (operationsFor owner ds)).or
        (Table.value? (Population.operationsOf t owner) name) := by
  induction ds generalizing t with
  | nil => rfl
  | cons d ds ih =>
    unfold compileOwners
    dsimp only
    rw [ih]
    by_cases ho : d.name = owner
    · -- what comes later goes before what is entered now
      have hoperations : operationsFor owner (d :: ds) = d.operations ++ operationsFor owner ds := by
        simp [operationsFor, ho]
      rw [hoperations, BodyDecl.last_append, Option.or_assoc, ho]
      simp only [Population.operationsOf, Table.value?_put_self, Option.getD_some]
      exact congrArg _ (value?_compile ..)
    · have hoperations : operationsFor owner (d :: ds) = operationsFor owner ds := by simp [operationsFor, ho]
      rw [hoperations]
      simp only [Population.operationsOf, Table.value?_put_of_ne ho]

theorem rejected_compileOwners (t : Table (Table Action)) (ds : List OwnerDecl) :
    (compileOwners t ds).2 = ds.flatMap OwnerDecl.rejected := by
  induction ds generalizing t with
  | nil => rfl
  | cons d ds ih =>
    unfold compileOwners
    dsimp only
    rw [ih, rejected_compile, List.flatMap_cons]
    rfl

/-! ## Classes -/

/-- The bodies of a class: those of its derived attributes, of its operations and of its class operations. -/
inductive BodyKind where
  | derived
  | operation
  | classOperation
  deriving DecidableEq, Repr

namespace BodyKind

def label : BodyKind → String → String → String
  | classOperation => ownerLabel
  | _ => fun className name => s!"{className}.{name}"

def actions (c : ClassDef) : BodyKind → Table Action
  | derived => c.derived
  | operation => c.operations
  | classOperation => c.classOperations

def declared (d : ClassDecl) : BodyKind → List BodyDecl
  | derived => d.derived
  | operation => d.operations
  | classOperation => d.classOperations

/-- The bodies that are declared for a class. -/
def declaredFor (kind : BodyKind) (className : String) (ds : List ClassDecl) : List BodyDecl :=
  (ds.filter (·.name = className)).flatMap kind.declared

/-- The bodies of a class that do not parse, of this kind. -/
def rejected (kind : BodyKind) (d : ClassDecl) : List RejectedBody :=
  (kind.declared d).filterMap (BodyDecl.rejected? (kind.label d.name))

end BodyKind

/-- The bodies of a class that do not parse. -/
def Model.ClassDecl.rejected (d : ClassDecl) : List RejectedBody :=
  BodyKind.derived.rejected d ++ BodyKind.operation.rejected d ++ BodyKind.classOperation.rejected d

/-- The body of that kind and name that a class has in a table of classes. -/
def bodyIn (classes : Table ClassDef) (kind : BodyKind) (className name : String) : Option Action :=
  (Table.value? classes className).bind fun c => Table.value? (kind.actions c) name

theorem value?_compileClass (c : ClassDef) (d : ClassDecl) (kind : BodyKind) (name : String) :
    Table.value? (kind.actions (c.compile d).1) name =
      (last (kind.label d.name) name (kind.declared d)).or (Table.value? (kind.actions c) name) := by
  cases kind with
  | derived | operation | classOperation => exact value?_compile ..

theorem rejected_compileClass (c : ClassDef) (d : ClassDecl) : (c.compile d).2 = d.rejected := by
  unfold ClassDef.compile
  dsimp only
  rw [rejected_compile, rejected_compile, rejected_compile]
  rfl

/-- The bodies of a class that is defined. -/
theorem bodyIn_compileClasses {t : Table ClassDef} {className : String} (h : Table.has t className = true)
    (ds : List ClassDecl) (kind : BodyKind) (name : String) :
    bodyIn (compileClasses t ds).1 kind className name =
      (last (kind.label className) name (kind.declaredFor className ds)).or (bodyIn t kind className name) := by
  induction ds generalizing t with
  | nil => rfl
  | cons d ds ih =>
    unfold compileClasses
    by_cases hn : d.name = className
    · have hdeclared : kind.declaredFor className (d :: ds) = kind.declared d ++ kind.declaredFor className ds := by
        simp [BodyKind.declaredFor, hn]
      obtain ⟨c, hc⟩ := Option.isSome_iff_exists.mp h
      rw [hn, hc]
      dsimp only
      rw [ih (by rw [Table.has_put, h, Bool.or_true]), hdeclared, BodyDecl.last_append, Option.or_assoc]
      simp only [bodyIn, Table.value?_put_self, Option.bind_some, hc, value?_compileClass, hn]
    · have hdeclared : kind.declaredFor className (d :: ds) = kind.declaredFor className ds := by
        simp [BodyKind.declaredFor, hn]
      rw [hdeclared]
      split
      · exact ih h
      · dsimp only
        rw [ih (by rw [Table.has_put, h, Bool.or_true])]
        simp only [bodyIn, Table.value?_put_of_ne hn]

theorem rejected_compileClasses (t : Table ClassDef) (ds : List ClassDecl)
    (h : ∀ d ∈ ds, Table.has t d.name = true) :
    (compileClasses t ds).2 = ds.flatMap ClassDecl.rejected := by
  induction ds generalizing t with
  | nil => rfl
  | cons d ds ih =>
    obtain ⟨c, hc⟩ := Option.isSome_iff_exists.mp (h d List.mem_cons_self)
    unfold compileClasses
    rw [hc]
    dsimp only
    rw [rejected_compileClass, List.flatMap_cons, ih]
    intro d' hd'
    rw [Table.has_put, h d' (List.mem_cons_of_mem d hd'), Bool.or_true]

/-! ## Models that fit -/

/-- The association joins classes that are defined, with ends that can be told apart: two distinct phrases, if one class
is at both ends and there is no link class, and two classes, if there is one. -/
structure Model.AssociationDecl.Suits (d : AssociationDecl) (defined : String → Prop) : Prop where
  classes : ∀ className ∈ d.first.className :: d.second.className :: d.link.toList, defined className
  reflexive : d.link = none → d.first.className = d.second.className →
    ∃ x y, d.first.phrase = some x ∧ d.second.phrase = some y ∧ x ≠ y
  linked : d.link.isSome = true → d.first.className ≠ d.second.className

/-- The classes of the model are new and have distinct names, and its associations join classes of the population or of
the model. -/
structure Model.FitsIn (m : Model) (p : Population) : Prop where
  distinct : (m.classes.map ClassDecl.name).Nodup
  fresh : ∀ d ∈ m.classes, Table.has p.classes d.name = false
  associations : ∀ d ∈ m.associations,
    d.Suits fun className => Table.has p.classes className = true ∨ className ∈ m.classes.map ClassDecl.name

namespace Population

variable {p q : Population}

theorem declareClass_eq (p : Population) (d : ClassDecl) :
    p.declareClass d = if Table.has p.classes d.name then .error (.definedTwice d.name)
      else .ok { p with classes := Table.put p.classes d.name ⟨d.attributes, [], [], []⟩ } := rfl

/-- All classes can be defined just if they are new and have distinct names. -/
theorem declareClasses_iff (p : Population) (ds : List ClassDecl) :
    (p.untilError declareClass ds).2 = none ↔
      (ds.map ClassDecl.name).Nodup ∧ ∀ d ∈ ds, Table.has p.classes d.name = false := by
  induction ds generalizing p with
  | nil => simp [untilError]
  | cons d ds ih =>
    unfold untilError
    rw [declareClass_eq]
    cases hd : Table.has p.classes d.name with
    | true => simp [hd]
    | false =>
      simp only [Bool.false_eq_true, if_false, ih, List.map_cons, List.nodup_cons, List.forall_mem_cons, hd, true_and,
        Table.has_put, Bool.or_eq_false_iff, decide_eq_false_iff_not]
      constructor
      · rintro ⟨hnodup, hnew⟩
        refine ⟨⟨fun hmem => ?_, hnodup⟩, fun d' hd' => (hnew d' hd').2⟩
        obtain ⟨d', hd', hname⟩ := List.mem_map.mp hmem
        exact (hnew d' hd').1 hname.symm
      · rintro ⟨⟨hmem, hnodup⟩, hnew⟩
        refine ⟨hnodup, fun d' hd' => ⟨fun hname => hmem ?_, hnew d' hd'⟩⟩
        rw [hname]
        exact List.mem_map_of_mem hd'

theorem has_declareClasses {ds : List ClassDecl} (h : p.untilError declareClass ds = (q, none)) (className : String) :
    Table.has q.classes className = true ↔
      Table.has p.classes className = true ∨ className ∈ ds.map ClassDecl.name := by
  induction ds generalizing p with
  | nil =>
    cases h
    simp
  | cons d ds ih =>
    unfold untilError at h
    rw [declareClass_eq] at h
    cases hd : Table.has p.classes d.name with
    | true => simp [hd] at h
    | false =>
      simp only [hd, Bool.false_eq_true, if_false] at h
      rw [ih h, Table.has_put, List.map_cons, List.mem_cons, Bool.or_eq_true, decide_eq_true_iff]
      constructor
      · rintro ((rfl | hp) | hmem)
        · exact .inr (.inl rfl)
        · exact .inl hp
        · exact .inr (.inr hmem)
      · rintro (hp | rfl | hmem)
        · exact .inl (.inr hp)
        · exact .inl (.inl rfl)
        · exact .inr hmem

theorem declareAssociation_iff (p : Population) (d : AssociationDecl) :
    (∃ q, p.declareAssociation d = .ok q) ↔ d.Suits fun className => Table.has p.classes className = true := by
  obtain ⟨id, first, second, link⟩ := d
  cases link with
  | none =>
    constructor
    · rintro ⟨q, h⟩
      obtain ⟨_, hfirst, h⟩ := ok_of_bind h
      obtain ⟨_, hsecond, h⟩ := ok_of_bind h
      split at h
      · cases h
      · rename_i hguard
        refine ⟨?_, fun _ hsame => ?_, nofun⟩
        · simpa using ⟨has_of_classDef hfirst, has_of_classDef hsecond⟩
        · simp only [not_and, not_or, Bool.not_eq_true, Option.isNone_eq_false_iff] at hguard
          obtain ⟨h₁, h₂, hne⟩ := hguard hsame
          obtain ⟨x, hx⟩ := Option.isSome_iff_exists.mp h₁
          obtain ⟨y, hy⟩ := Option.isSome_iff_exists.mp h₂
          exact ⟨x, y, hx, hy, fun hxy => hne (by rw [hx, hy, hxy])⟩
    · rintro ⟨hclasses, hphrases, -⟩
      obtain ⟨c₁, hfirst⟩ := classDef_of_has (hclasses first.className (by simp))
      obtain ⟨c₂, hsecond⟩ := classDef_of_has (hclasses second.className (by simp))
      have hguard : ¬ (first.className = second.className ∧
          (first.phrase.isNone ∨ second.phrase.isNone ∨ first.phrase = second.phrase)) := by
        rintro ⟨hsame, hphrase⟩
        obtain ⟨x, y, hx, hy, hne⟩ := hphrases rfl hsame
        dsimp only at hx hy
        simp [hx, hy, hne] at hphrase
      show ∃ q, p.defineAssociation id first second = .ok q
      unfold defineAssociation
      rw [hfirst, hsecond]
      exact ⟨_, if_neg hguard⟩
  | some link =>
    constructor
    · rintro ⟨q, h⟩
      obtain ⟨_, hfirst, h⟩ := ok_of_bind h
      obtain ⟨_, hsecond, h⟩ := ok_of_bind h
      obtain ⟨_, hlink, h⟩ := ok_of_bind h
      split at h
      · cases h
      · rename_i hdistinct
        refine ⟨?_, nofun, fun _ => hdistinct⟩
        simpa using ⟨has_of_classDef hfirst, has_of_classDef hsecond, has_of_classDef hlink⟩
    · rintro ⟨hclasses, -, hlinked⟩
      obtain ⟨c₁, hfirst⟩ := classDef_of_has (hclasses first.className (by simp))
      obtain ⟨c₂, hsecond⟩ := classDef_of_has (hclasses second.className (by simp))
      obtain ⟨c₃, hlink⟩ := classDef_of_has (hclasses link (by simp))
      show ∃ q, p.defineLinkedAssociation id first second link = .ok q
      unfold defineLinkedAssociation
      rw [hfirst, hsecond, hlink]
      exact ⟨_, if_neg (hlinked rfl)⟩

theorem classes_declareAssociation {d : AssociationDecl} (h : p.declareAssociation d = .ok q) :
    q.classes = p.classes := by
  unfold declareAssociation at h
  split at h
  · obtain ⟨_, _, h⟩ := ok_of_bind h
    obtain ⟨_, _, h⟩ := ok_of_bind h
    obtain ⟨_, _, h⟩ := ok_of_bind h
    split at h <;> cases h
    rfl
  · obtain ⟨_, _, h⟩ := ok_of_bind h
    obtain ⟨_, _, h⟩ := ok_of_bind h
    split at h <;> cases h
    rfl

theorem declareAssociations_iff (p : Population) (ds : List AssociationDecl) :
    (p.untilError declareAssociation ds).2 = none ↔
      ∀ d ∈ ds, d.Suits fun className => Table.has p.classes className = true := by
  induction ds generalizing p with
  | nil => simp [untilError]
  | cons d ds ih =>
    rw [List.forall_mem_cons, ← declareAssociation_iff]
    unfold untilError
    cases h : p.declareAssociation d with
    | ok q =>
      have hclasses := classes_declareAssociation h
      simp [ih, hclasses]
    | error e => simp

/-- By the time of the associations, a class is defined if it was before or the model declares it. -/
theorem has_compiled {m : Model} (h : (p.enumerated m).untilError declareClass m.classes = (q, none))
    (className : String) : Table.has (q.compiled m).classes className = true ↔
      Table.has p.classes className = true ∨ className ∈ m.classes.map ClassDecl.name := by
  refine Iff.trans ?_ (has_declareClasses h className)
  constructor
  · intro hhas
    by_contra hnone
    -- the model does not declare it, so that no body is compiled for it
    have hother : ∀ d ∈ m.classes, d.name ≠ className := by
      rintro d hd rfl
      exact hnone (new_of_untilError h d hd).2
    have hvalue : Table.value? (q.compiled m).classes className = _ := value?_compileClasses m.classes q.classes hother
    rw [Table.has, hvalue] at hhas
    exact hnone hhas
  · exact has_compileClasses m.classes q.classes

theorem load_ok_iff (p : Population) (m : Model) : (∃ rejected, (p.load m).2 = .ok rejected) ↔ m.FitsIn p := by
  have hclasses := declareClasses_iff (p.enumerated m) m.classes
  have hloads := loads_load p m
  generalize p.load m = result at hloads ⊢
  cases hloads with
  | classFails h =>
    rw [h] at hclasses
    refine ⟨nofun, fun hfits => ?_⟩
    cases hclasses.mpr ⟨hfits.distinct, hfits.fresh⟩
  | @associationFails q r e h hfails =>
    have hassociations := declareAssociations_iff (q.compiled m) m.associations
    simp only [hfails, has_compiled h] at hassociations
    refine ⟨nofun, fun hfits => ?_⟩
    cases hassociations.mpr hfits.associations
  | @done q r h hdone =>
    have hassociations := declareAssociations_iff (q.compiled m) m.associations
    simp only [hdone, has_compiled h, true_iff] at hassociations
    rw [h, eq_self, true_iff] at hclasses
    exact ⟨fun _ => ⟨hclasses.1, hclasses.2, hassociations⟩, fun _ => ⟨_, rfl⟩⟩

/-! ## Bodies that are found -/

/-- A class that is new has no bodies. -/
theorem bodyIn_declareClass {d : ClassDecl} (h : p.declareClass d = .ok q) (kind : BodyKind) (className name : String) :
    bodyIn q.classes kind className name = bodyIn p.classes kind className name := by
  rw [declareClass_eq] at h
  cases hd : Table.has p.classes d.name with
  | true => simp [hd] at h
  | false =>
    simp only [hd, Bool.false_eq_true, if_false] at h
    cases h
    unfold bodyIn
    by_cases hn : d.name = className
    · subst hn
      have hnone : Table.value? p.classes d.name = none := by simpa [Table.has] using hd
      rw [Table.value?_put_self, hnone]
      cases kind <;> rfl
    · rw [Table.value?_put_of_ne hn]

theorem bodyIn_compiled {m : Model} (h : (p.enumerated m).untilError declareClass m.classes = (q, none))
    (kind : BodyKind) (className name : String) :
    bodyIn (q.compiled m).classes kind className name =
      (last (kind.label className) name (kind.declaredFor className m.classes)).or
        (bodyIn p.classes kind className name) := by
  have hdefined : bodyIn q.classes kind className name = bodyIn p.classes kind className name := by
    have hrelated := untilError_related
      (R := fun p q => bodyIn q.classes kind className name = bodyIn p.classes kind className name)
      (fun _ => rfl) (fun h₁ h₂ => h₂.trans h₁) declareClass (fun h => bodyIn_declareClass h kind className name)
      (p.enumerated m) m.classes
    rw [h] at hrelated
    exact hrelated
  by_cases hhas : Table.has q.classes className = true
  · rw [← hdefined]
    exact bodyIn_compileClasses hhas m.classes kind name
  · have hother : ∀ d ∈ m.classes, d.name ≠ className := by
      rintro d hd rfl
      exact hhas (new_of_untilError h d hd).2
    have hnone : m.classes.filter (·.name = className) = [] :=
      List.filter_eq_nil_iff.mpr fun d hd => by simpa using hother d hd
    have hdeclared : kind.declaredFor className m.classes = [] := by simp [BodyKind.declaredFor, hnone]
    have hvalue := value?_compileClasses m.classes q.classes hother
    rw [hdeclared, ← hdefined]
    unfold bodyIn compiled
    rw [hvalue]
    rfl

end Population

/-- What can be looked for by its name. -/
inductive Sought where
  | function (name : String)
  | operation (r : InstanceRef) (name : String)
  | classOperation (className name : String)
  | derived (r : InstanceRef) (name : String)
  | bridge (entity name : String)
  | portOperation (port name : String)

/-- Whether the instance is there whose operation or attribute is looked for. -/
def Sought.within (instances : List Instance) : Sought → Prop
  | operation r _ | derived r _ => r ∈ instances.map Instance.ref
  | _ => True

/-- The class whose body is looked for. -/
def Sought.className? : Sought → Option String
  | operation r _ | derived r _ => some r.className
  | classOperation className _ => some className
  | _ => none

/-- The action that computes the attribute, if it is derived. -/
def Attribute.action? : Attribute → Option Action
  | derived a => some a
  | stored _ => none

/-- The action that is found. -/
def Population.found (p : Population) : Sought → Option Action
  | .function name => (p.findFunction name).toOption
  | .operation r name => (p.findInstanceOperation r name).toOption
  | .classOperation className name => (p.findClassOperation className name).toOption
  | .derived r name => (p.readAttribute r name).toOption.bind Attribute.action?
  | .bridge entity name => (p.findBridge entity name).toOption
  | .portOperation port name => (p.findPortOperation port name).toOption

namespace Model

/-- The last body of the name in the model that parses. -/
def lastBody (m : Model) : Sought → Option Action
  | .function name => last id name m.functions
  | .operation r name =>
    last (BodyKind.operation.label r.className) name (BodyKind.operation.declaredFor r.className m.classes)
  | .classOperation className name =>
    last (BodyKind.classOperation.label className) name (BodyKind.classOperation.declaredFor className m.classes)
  | .derived r name =>
    last (BodyKind.derived.label r.className) name (BodyKind.derived.declaredFor r.className m.classes)
  | .bridge entity name => last (ownerLabel entity) name (operationsFor entity m.entities)
  | .portOperation port name => last (ownerLabel port) name (operationsFor port m.ports)

/-- The bodies that do not parse: class by class, then functions, external entities and ports. -/
def rejected (m : Model) : List RejectedBody :=
  m.classes.flatMap ClassDecl.rejected ++ m.functions.filterMap (BodyDecl.rejected? id) ++
    m.entities.flatMap OwnerDecl.rejected ++ m.ports.flatMap OwnerDecl.rejected

end Model

namespace Population

variable {p q : Population}

theorem toOption_findOperation (t : Table Action) (owner name : String) :
    (findOperation t owner name).toOption = Table.value? t name := by
  unfold findOperation
  cases Table.value? t name <;> rfl

theorem found_function (p : Population) (name : String) : p.found (.function name) = Table.value? p.functions name := by
  show (p.findFunction name).toOption = _
  unfold findFunction
  cases Table.value? p.functions name <;> rfl

/-- An operation of a class, which has to be defined. -/
theorem toOption_findIn (p : Population) (kind : BodyKind) (className name : String) :
    (do findOperation (kind.actions (← p.classDef className)) className name).toOption =
      bodyIn p.classes kind className name := by
  unfold classDef bodyIn
  cases Table.value? p.classes className with
  | none => rfl
  | some c => exact toOption_findOperation _ className name

theorem found_classOperation (p : Population) (className name : String) :
    p.found (.classOperation className name) = bodyIn p.classes .classOperation className name :=
  toOption_findIn p .classOperation className name

theorem found_bridge (p : Population) (entity name : String) :
    p.found (.bridge entity name) = Table.value? (operationsOf p.entities entity) name :=
  toOption_findOperation ..

theorem found_portOperation (p : Population) (port name : String) :
    p.found (.portOperation port name) = Table.value? (operationsOf p.ports port) name :=
  toOption_findOperation ..

theorem found_operation {r : InstanceRef} (hr : r ∈ p.instances.map Instance.ref) (name : String) :
    p.found (.operation r name) = bodyIn p.classes .operation r.className name := by
  obtain ⟨i, hi⟩ := tracks_iff.mpr hr
  obtain rfl := (mem_of_tracked hi).2
  show (p.findInstanceOperation i.ref name).toOption = _
  unfold findInstanceOperation
  rw [hi]
  exact toOption_findIn p .operation i.className name

theorem found_derived {r : InstanceRef} (hr : r ∈ p.instances.map Instance.ref) (name : String) :
    p.found (.derived r name) = bodyIn p.classes .derived r.className name := by
  obtain ⟨i, hi⟩ := tracks_iff.mpr hr
  obtain rfl := (mem_of_tracked hi).2
  show (p.readAttribute i.ref name).toOption.bind Attribute.action? = _
  unfold readAttribute classDef bodyIn
  rw [hi]
  cases hc : Table.value? p.classes i.ref.className with
  | none =>
    have hclass : Table.value? p.classes i.className = none := hc
    simp only [bind, Except.bind, hclass]
    rfl
  | some c =>
    have hclass : Table.value? p.classes i.className = some c := hc
    simp only [bind, Except.bind, hclass, Option.bind, BodyKind.actions]
    cases Table.value? c.derived name with
    | some a => rfl
    | none =>
      cases Table.value? i.attributes name with
      | some v => rfl
      | none => rfl

/-- Of a class that is not defined, nothing is found. -/
theorem found_of_undefined {className : String} (h : Table.has p.classes className = false) {x : Sought}
    (hx : x.className? = some className) (hwithin : x.within p.instances) : p.found x = none := by
  have hnone : ∀ kind name, bodyIn p.classes kind className name = none := by
    intro kind name
    have hvalue : Table.value? p.classes className = none := by simpa [Table.has] using h
    rw [bodyIn, hvalue]
    rfl
  cases x with
  | function | bridge | portOperation => cases hx
  | operation r name =>
    cases hx
    rw [found_operation hwithin, hnone]
  | classOperation _ name =>
    cases hx
    rw [found_classOperation, hnone]
  | derived r name =>
    cases hx
    rw [found_derived hwithin, hnone]

/-! ## Loads -/

/-- A load that succeeds goes before what was there, with its last bodies, whatever instances there are by then. -/
theorem found_load {m : Model} {rejected : List RejectedBody} (h : p.load m = (q, .ok rejected))
    (instances : List Instance) {x : Sought} (hx : x.within instances) :
    { q with instances }.found x = (m.lastBody x).or ({ p with instances }.found x) := by
  have hloads := loads_load p m
  rw [h] at hloads
  cases hloads with
  | @done r s hclasses hassociations =>
    -- up to the associations, only classes were defined and compiled
    have hstart : Spares p (p.enumerated m) := { Spares.refl p with }
    have hdefined := hstart.trans
      (untilError_related .refl .trans declareClass spares_declareClass (p.enumerated m) m.classes)
    have hjoined := untilError_related .refl .trans declareAssociation spares_declareAssociation (r.compiled m)
      m.associations
    have hsame := untilError_related (R := fun p q => q.classes = p.classes) (fun _ => rfl)
      (fun h₁ h₂ => h₂.trans h₁) declareAssociation classes_declareAssociation (r.compiled m) m.associations
    rw [hclasses] at hdefined
    rw [hassociations] at hjoined hsame
    have hbody : ∀ kind className name, bodyIn s.classes kind className name =
        (last (kind.label className) name (kind.declaredFor className m.classes)).or
          (bodyIn p.classes kind className name) := by
      intro kind className name
      rw [hsame]
      exact bodyIn_compiled hclasses kind className name
    have hfunctions : s.functions = p.functions := hjoined.functions.trans hdefined.functions
    have hentities : s.entities = p.entities := hjoined.entities.trans hdefined.entities
    have hports : s.ports = p.ports := hjoined.ports.trans hdefined.ports
    cases x with
    | function name =>
      rw [found_function, found_function, value?_compile, hfunctions]
      rfl
    | operation r name =>
      rw [found_operation hx, found_operation hx]
      exact hbody .operation r.className name
    | classOperation className name =>
      rw [found_classOperation, found_classOperation]
      exact hbody .classOperation className name
    | derived r name =>
      rw [found_derived hx, found_derived hx]
      exact hbody .derived r.className name
    | bridge entity name =>
      rw [found_bridge, found_bridge, value?_compileOwners, hentities]
      rfl
    | portOperation port name =>
      rw [found_portOperation, found_portOperation, value?_compileOwners, hports]
      rfl

theorem rejected_load {m : Model} {rejected : List RejectedBody} (h : p.load m = (q, .ok rejected)) :
    rejected = m.rejected := by
  have hloads := loads_load p m
  rw [h] at hloads
  cases hloads with
  | done hclasses hassociations =>
    have hdefined := fun d hd => (new_of_untilError hclasses d hd).2
    rw [rejected_compileClasses _ _ hdefined, rejected_compile, rejected_compileOwners, rejected_compileOwners]
    rfl

/-- A load neither loses nor invents bodies. It succeeds just if the model fits the population. Then it gives back the
bodies that do not parse, in their order, each with its label and why. And for every name that can be looked for,
whatever instances there are by then, the last body of the model that has the name and parses is found, or else what was
found before, which is nothing for a class that the load itself defines. -/
theorem load_bodies (p : Population) (m : Model) :
    ((∃ rejected, (p.load m).2 = .ok rejected) ↔ m.FitsIn p) ∧
    ∀ q rejected, p.load m = (q, .ok rejected) → rejected = m.rejected ∧
      ∀ (instances : List Instance) (x : Sought), x.within instances →
        { q with instances }.found x = (m.lastBody x).or ({ p with instances }.found x) ∧
        ∀ d ∈ m.classes, x.className? = some d.name → { p with instances }.found x = none := by
  refine ⟨load_ok_iff p m, fun q rejected h => ⟨rejected_load h, fun instances x hx => ⟨found_load h instances hx, ?_⟩⟩⟩
  have hfits : m.FitsIn p := (load_ok_iff p m).mp ⟨rejected, by rw [h]⟩
  intro d hd hclass
  exact found_of_undefined (p := { p with instances }) (hfits.fresh d hd) hclass hx

/-- Each name has bodies that parse and bodies that do not, and the log is redefined by one that does not. -/
def kennelBodies : Model where
  component := none
  enumerations := []
  classes := [⟨"Dog", [], [], [⟨"bark", "return 1;"⟩, ⟨"bark", "return ("⟩], []⟩]
  associations := [⟨"R1", ⟨"Dog", some "leads", false⟩, ⟨"Dog", some "follows", true⟩, none⟩]
  functions := [⟨"feed", "return 1;"⟩, ⟨"feed", "return 2;"⟩, ⟨"feed", "return"⟩]
  entities := [⟨"LOG", [⟨"LogInfo", "return ("⟩]⟩]
  ports := []

theorem kennelBodies_fits : kennelBodies.FitsIn .initial := by
  refine ⟨by decide, by decide, fun d hd => ?_⟩
  obtain rfl := List.mem_singleton.mp hd
  exact ⟨by simp [kennelBodies], fun _ _ => ⟨"leads", "follows", rfl, rfl, by decide⟩, nofun⟩

theorem load_bodies_kennelBodies : ∃ q rejected, Population.initial.load kennelBodies = (q, .ok rejected) ∧
    rejected.map RejectedBody.label = ["Dog.bark", "feed", "LOG::LogInfo"] ∧
    (∃ body, parse "return 2;" = .ok body ∧ q.found (.function "feed") = some (.written "feed" body)) ∧
    q.found (.bridge "LOG" "LogInfo") = some (.log .info) ∧
    ({ q with instances := [⟨"Dog", 1, []⟩] }.found (.operation ⟨"Dog", 1⟩ "bark")).isSome = true := by
  obtain ⟨rejected, hok⟩ := (load_bodies .initial kennelBodies).1.mpr kennelBodies_fits
  have hload : Population.initial.load kennelBodies = ((Population.initial.load kennelBodies).1, .ok rejected) :=
    Prod.ext rfl hok
  generalize (Population.initial.load kennelBodies).1 = q at hload
  obtain ⟨hrejected, hfound⟩ := (load_bodies .initial kennelBodies).2 q rejected hload
  refine ⟨q, rejected, hload, ?_, ?_, ?_, ?_⟩
  · rw [hrejected]
    decide +kernel
  · have hsecond : (parse "return 2;").toOption.isSome = true := by decide +kernel
    have hthird : (parse "return").toOption.isSome = false := by decide +kernel
    cases h₂ : parse "return 2;" with
    | error e => simp [h₂, Except.toOption] at hsecond
    | ok body =>
      cases h₃ : parse "return" with
      | ok other => simp [h₃, Except.toOption] at hthird
      | error e =>
        refine ⟨body, rfl, ((hfound q.instances (.function "feed") trivial).1).trans ?_⟩
        simp [kennelBodies, Model.lastBody, last, BodyDecl.action?, h₂, h₃]
  · have hnone : (kennelBodies.lastBody (.bridge "LOG" "LogInfo")).isNone = true := by decide +kernel
    refine ((hfound q.instances (.bridge "LOG" "LogInfo") trivial).1).trans ?_
    rw [Option.isNone_iff_eq_none.mp hnone]
    rfl
  · have hsome : (kennelBodies.lastBody (.operation ⟨"Dog", 1⟩ "bark")).isSome = true := by decide +kernel
    rw [(hfound [⟨"Dog", 1, []⟩] (.operation ⟨"Dog", 1⟩ "bark") List.mem_cons_self).1, Option.isSome_or, hsome]
    rfl

end Population

end ObjectAction
