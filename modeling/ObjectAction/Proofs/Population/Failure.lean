/-
What an operation that fails leaves behind. The updates in place make their checks and their writes one after
another, so this is not a matter of course: an update that writes before its last check would fail with the
write done. Every operation but a load turns out to be all or nothing (`Update.change`), since its checks come
first. A load is a sequence of such operations, and those before the one that fails stay done: definitions
are added, and nothing that was there is touched.
-/
import ObjectAction.Population.Update
import ObjectAction.Proofs.Population.Declarations

namespace ObjectAction

namespace Update

variable {α β : Type}

/-! ## One update after another -/

theorem bind_ok {u : Update α} {k : α → Update β} {p q : Population} {a : α} (h : u p = .ok a q) :
    (u >>= k) p = k a q := by
  show EStateM.bind u k p = _
  simp only [EStateM.bind, h]

theorem bind_error {u : Update α} {k : α → Update β} {p q : Population} {e : PopulationError}
    (h : u p = .error e q) : (u >>= k) p = .error e q := by
  show EStateM.bind u k p = _
  simp only [EStateM.bind, h]

/-! ## All or nothing -/

/-- The update that does at once what `f` does, all of it or nothing. -/
def change (f : Population → Except PopulationError Population) : Update Unit := fun p =>
  match f p with
  | .ok q => .ok () q
  | .error e => .error e p

variable {f g : Population → Except PopulationError Population}

theorem change_ok {p q : Population} (h : f p = .ok q) : change f p = .ok () q := by
  simp only [change, h]

theorem change_error {p : Population} {e : PopulationError} (h : f p = .error e) : change f p = .error e p := by
  simp only [change, h]

theorem of_change_error {p q : Population} {e : PopulationError} (h : change f p = .error e q) :
    q = p ∧ f p = .error e := by
  cases hf : f p with
  | ok q' =>
    rw [change_ok hf] at h
    cases h
  | error e' =>
    rw [change_error hf] at h
    cases h
    exact ⟨rfl, rfl⟩

theorem change_modify (f : Population → Population) : (modify f : Update Unit) = change fun p => .ok (f p) := rfl

/-- A question before an update that is all or nothing. -/
theorem change_ask {ask' : Population → Except PopulationError α} {u : α → Update Unit}
    {g : α → Population → Except PopulationError Population} (h : ∀ a, u a = change (g a)) :
    (ask ask' >>= u) = change fun p => ask' p >>= fun a => g a p := by
  funext p
  cases hask : ask' p with
  | ok a =>
    have hok : ask ask' p = .ok a p := by simp only [ask, hask]
    rw [bind_ok hok, h a]
    simp only [change, hask]
    rfl
  | error e =>
    have herror : ask ask' p = .error e p := by simp only [ask, hask]
    rw [bind_error herror]
    simp only [change, hask]
    rfl

/-- A check before an update that is all or nothing. -/
theorem change_refuse {c : Population → Bool} {e : PopulationError} {u : Update Unit} (h : u = change g) :
    (refuse c e >>= fun _ => u) = change fun p => if c p then .error e else g p := by
  subst h
  funext p
  by_cases hc : c p
  · have herror : refuse c e p = .error e p := by simp [refuse, hc]
    rw [bind_error herror]
    simp [change, hc]
  · have hok : refuse c e p = .ok () p := by simp [refuse, hc]
    rw [bind_ok hok]
    simp [change, hc]

theorem change_ite {c : Prop} [Decidable c] {u v : Update Unit} (hu : u = change f) (hv : v = change g) :
    (if c then u else v) = change fun p => if c then f p else g p := by
  split
  · exact hu
  · exact hv

/-! ## Every operation but a load -/

theorem defineClass_eq (name : String) (attributes : List (String × AttributeType)) :
    defineClass name attributes = change (·.defineClass name attributes) :=
  change_refuse (change_modify _)

theorem defineAssociation_eq (id : String) (first second : End) :
    defineAssociation id first second = change (·.defineAssociation id first second) :=
  change_ask fun _ => change_ask fun _ => change_ite rfl (change_modify _)

theorem defineLinkedAssociation_eq (id : String) (first second : End) (link : String) :
    defineLinkedAssociation id first second link = change (·.defineLinkedAssociation id first second link) := by
  refine change_ask fun _ => change_ask fun _ => change_ask fun _ => change_ite rfl ?_
  -- three writes, after all checks
  funext p
  show EStateM.Result.ok () _ = EStateM.Result.ok () _
  simp

theorem create_eq (className : String) :
    (create className >>= fun _ => pure ()) = change fun p => (p.create className).map Prod.snd := by
  funext p
  have hget : create className p = (ask (·.classDef className) >>= fun c => do
      modify fun p => { p with nextId := p.nextId + 1 }
      let i : Instance := ⟨className, p.nextId, Population.initialAttributes c p.nextId⟩
      modify fun p => { p with instances := p.instances ++ [i] }
      return i.ref) p := rfl
  cases hc : p.classDef className with
  | error e =>
    have herror : create className p = .error e p := by
      rw [hget]
      exact bind_error (by simp only [ask, hc])
    rw [bind_error herror]
    simp only [change, Population.create, hc]
    rfl
  | ok c =>
    have hok : create className p = .ok ⟨className, p.nextId⟩ { p with
        instances := p.instances ++ [⟨className, p.nextId, Population.initialAttributes c p.nextId⟩]
        nextId := p.nextId + 1 } := by
      rw [hget]
      exact bind_ok (by simp only [ask, hc])
    rw [bind_ok hok]
    simp only [change, Population.create, hc]
    rfl

theorem delete_eq (r : InstanceRef) : delete r = change (·.delete r) := change_ask fun _ => rfl

theorem relate_eq (a b : InstanceRef) (id : String) (phrase : Option String) :
    relate a b id phrase = change (·.relate a b id phrase) := by
  refine change_ask fun _ => change_ask fun _ => change_ask fun r => ?_
  rw [change_refuse (change_refuse (change_modify _))]
  congr 1
  funext p
  by_cases hjoins : p.links.any (r.joins a b)
  · simp [hjoins]
  · simp only [hjoins, Bool.false_eq_true, if_false, false_or, Bool.or_eq_true, Bool.and_eq_true]
    rfl

theorem unrelate_eq (a b : InstanceRef) (id : String) (phrase : Option String) :
    unrelate a b id phrase = change (·.unrelate a b id phrase) := by
  refine change_ask fun _ => change_ask fun _ => change_ask fun r => ?_
  funext p
  have hget : (get : Update Population) p = .ok p p := rfl
  rw [bind_ok hget]
  have hany : p.links.any (r.joins a b) = (p.links.findIdx? (r.joins a b)).isSome := by simp
  cases hi : p.links.findIdx? (r.joins a b) with
  | none =>
    rw [hi] at hany
    simp only [change, hany, Option.isSome_none, Bool.false_eq_true, if_false]
    rfl
  | some i =>
    rw [hi] at hany
    have herase : p.links.eraseP (r.joins a b) = p.links.eraseIdx i := by
      rw [List.eraseP_eq_eraseIdx, hi]
    simp only [change, hany, Option.isSome_some, if_true, herase]
    rfl

theorem writeAttribute_eq (r : InstanceRef) (name : String) (v : Value) :
    writeAttribute r name v = change (·.writeAttribute r name v) := by
  refine change_ask fun i => change_ask fun c => change_ite rfl ?_
  cases c.attributes.lookup name with
  | none => rfl
  | some type =>
    dsimp only
    cases AttributeType.coerce? type v with
    | none => rfl
    | some w => rfl

theorem generate_eq (e : Event) : generate e = change (·.generate e) := by
  unfold generate Population.generate
  cases e.recipient with
  | ofClass className => exact change_ask fun _ => rfl
  | creator className => exact change_ask fun _ => rfl
  | receiver r => exact change_ask fun _ => rfl

/-! ## Loads -/

theorem declareClass_eq (d : Model.ClassDecl) :
    defineClass d.name d.attributes = change (Population.declareClass · d) :=
  defineClass_eq d.name d.attributes

theorem declareAssociation_eq (d : Model.AssociationDecl) :
    declareAssociation d = change (·.declareAssociation d) := by
  obtain ⟨id, first, second, link⟩ := d
  cases link with
  | none => exact defineAssociation_eq id first second
  | some link => exact defineLinkedAssociation_eq id first second link

theorem forM_modify (f : α → Population → Population) (as : List α) (p : Population) :
    (as.forM fun a => (modify (f a) : Update Unit)) p = .ok () (as.foldl (fun p a => f a p) p) := by
  induction as generalizing p with
  | nil => rfl
  | cons a as ih => exact ih (f a p)

/-- Updates that are all or nothing, one after another, end at the first that fails. -/
theorem forM_change {step : Population → α → Except PopulationError Population} {u : α → Update Unit}
    (h : ∀ a, u a = change (step · a)) (as : List α) (p : Population) :
    as.forM u p = match p.untilError step as with
      | (q, none) => .ok () q
      | (q, some e) => .error e q := by
  induction as generalizing p with
  | nil => rfl
  | cons a as ih =>
    show (u a >>= fun _ => as.forM u) p = _
    unfold Population.untilError
    cases hstep : step p a with
    | ok q =>
      have hok : u a p = .ok () q := by rw [h a]; exact change_ok hstep
      rw [bind_ok hok]
      exact ih q
    | error e =>
      have herror : u a p = .error e p := by rw [h a]; exact change_error hstep
      exact bind_error herror

/-- The bodies of classes that are all defined. -/
theorem compileClasses_eq (ds : List Model.ClassDecl) (p : Population)
    (h : ∀ d ∈ ds, Table.has p.classes d.name = true) :
    compileClasses ds p = .ok (ObjectAction.compileClasses p.classes ds).2
      { p with classes := (ObjectAction.compileClasses p.classes ds).1 } := by
  induction ds generalizing p with
  | nil => rfl
  | cons d ds ih =>
    obtain ⟨c, hc⟩ := Option.isSome_iff_exists.mp (h d List.mem_cons_self)
    have hclass : compileClass d p =
        .ok (c.compile d).2 { p with classes := Table.put p.classes d.name (c.compile d).1 } := by
      have hask : ask (·.classDef d.name) p = .ok c p := by simp only [ask, Population.classDef, hc]
      exact bind_ok hask
    have hrest := ih { p with classes := Table.put p.classes d.name (c.compile d).1 } fun d' hd' => by
      rw [Table.has_put, h d' (List.mem_cons_of_mem d hd'), Bool.or_true]
    unfold compileClasses ObjectAction.compileClasses
    rw [bind_ok hclass, bind_ok hrest]
    simp only [hc]
    rfl

end Update

namespace Population

/-- If all classes of a load can be defined, none of them was there before. -/
theorem new_of_untilError {p q : Population} {ds : List Model.ClassDecl}
    (h : p.untilError declareClass ds = (q, none)) :
    ∀ d ∈ ds, Table.has p.classes d.name = false ∧ Table.has q.classes d.name = true := by
  induction ds generalizing p with
  | nil => exact fun d hd => nomatch hd
  | cons d ds ih =>
    unfold untilError at h
    cases hd : p.declareClass d with
    | error e => rw [hd] at h; cases h
    | ok p' =>
      rw [hd] at h
      replace h : p'.untilError declareClass ds = (q, none) := h
      have hlater := (declares_declareClasses p' ds).classes
      rw [h] at hlater
      unfold declareClass defineClass at hd
      split at hd
      · cases hd
      · rename_i hnew
        cases hd
        intro d' hd'
        -- a class that is new at its turn was new at first, since none is ever removed
        rcases List.mem_cons.mp hd' with rfl | hd'
        · refine ⟨by simpa using hnew, hlater _ ?_⟩
          rw [Table.has_put, decide_eq_true rfl, Bool.true_or]
        · obtain ⟨hbefore, hafter⟩ := ih h d' hd'
          rw [Table.has_put, Bool.or_eq_false_iff] at hbefore
          exact ⟨hbefore.2, hafter⟩

end Population

namespace Update

/-- In place, a load goes and ends as it does at once. -/
theorem load_eq (m : Model) (p : Population) :
    load m p = match p.load m with
      | (q, .ok rejected) => .ok rejected q
      | (q, .error e) => .error e q := by
  have hstart : (m.enumerations.forM fun e => (modify (·.defineEnumeration e.1 e.2) : Update Unit)) p =
      .ok () (p.enumerated m) := by
    rw [forM_modify, Population.defineEnumerations_eq]
    rfl
  have hclasses := forM_change declareClass_eq m.classes (p.enumerated m)
  have hassociations := fun q : Population => forM_change declareAssociation_eq m.associations q
  have h := Population.loads_load p m
  unfold load
  rw [bind_ok hstart]
  generalize p.load m = result at h ⊢
  cases h with
  | classFails h₁ =>
    rw [h₁] at hclasses
    exact bind_error hclasses
  | @associationFails q r e h₁ h₂ =>
    rw [h₁] at hclasses
    have hcompiled := compileClasses_eq m.classes q fun d hd => (Population.new_of_untilError h₁ d hd).2
    have hfails := hassociations (q.compiled m)
    rw [h₂] at hfails
    rw [bind_ok hclasses, bind_ok hcompiled]
    exact bind_error hfails
  | @done q r h₁ h₂ =>
    rw [h₁] at hclasses
    have hcompiled := compileClasses_eq m.classes q fun d hd => (Population.new_of_untilError h₁ d hd).2
    have hdone := hassociations (q.compiled m)
    rw [h₂] at hdone
    rw [bind_ok hclasses, bind_ok hcompiled]
    exact bind_ok hdone

end Update

namespace Population

variable {p q : Population}

/-! ## What a load that fails leaves alone -/

/-- The second population has the instances, links, events and bodies of the first, and its classes. Legs and ways
across link classes may have been added behind those of the first. -/
structure Spares (p q : Population) : Prop where
  instances : q.instances = p.instances
  links : q.links = p.links
  nextId : q.nextId = p.nextId
  events : q.events = p.events
  functions : q.functions = p.functions
  entities : q.entities = p.entities
  ports : q.ports = p.ports
  classes : ∀ name c, Table.value? p.classes name = some c → Table.value? q.classes name = some c
  legs : p.legs <+: q.legs
  throughs : p.throughs <+: q.throughs

namespace Spares

theorem refl (p : Population) : Spares p p :=
  ⟨rfl, rfl, rfl, rfl, rfl, rfl, rfl, fun _ _ h => h, List.prefix_refl _, List.prefix_refl _⟩

theorem trans {r : Population} (h₁ : Spares p q) (h₂ : Spares q r) : Spares p r where
  instances := h₂.instances.trans h₁.instances
  links := h₂.links.trans h₁.links
  nextId := h₂.nextId.trans h₁.nextId
  events := h₂.events.trans h₁.events
  functions := h₂.functions.trans h₁.functions
  entities := h₂.entities.trans h₁.entities
  ports := h₂.ports.trans h₁.ports
  classes name c h := h₂.classes name c (h₁.classes name c h)
  legs := h₁.legs.trans h₂.legs
  throughs := h₁.throughs.trans h₂.throughs

/-- A leg stands where it stood. -/
theorem leg (h : Spares p q) {i : Nat} {leg : Leg} (hleg : p.legs[i]? = some leg) : q.legs[i]? = some leg := by
  obtain ⟨more, hmore⟩ := h.legs
  rw [← hmore, List.getElem?_append_left (List.getElem?_eq_some_iff.mp hleg).1, hleg]

end Spares

theorem spares_declareClass {d : Model.ClassDecl} (h : p.declareClass d = .ok q) : Spares p q := by
  unfold declareClass defineClass at h
  split at h
  · cases h
  · rename_i hnew
    cases h
    refine { Spares.refl p with classes := fun name c hc => ?_ }
    have hne : d.name ≠ name := by
      rintro rfl
      exact hnew (Option.isSome_iff_exists.mpr ⟨c, hc⟩)
    rw [Table.value?_put_of_ne hne, hc]

theorem spares_declareAssociation {d : Model.AssociationDecl} (h : p.declareAssociation d = .ok q) :
    Spares p q := by
  unfold declareAssociation at h
  split at h
  · obtain ⟨_, _, h⟩ := ok_of_bind h
    obtain ⟨_, _, h⟩ := ok_of_bind h
    obtain ⟨_, _, h⟩ := ok_of_bind h
    split at h
    · cases h
    · cases h
      exact { Spares.refl p with legs := List.prefix_append _ _, throughs := List.prefix_append _ _ }
  · obtain ⟨_, _, h⟩ := ok_of_bind h
    obtain ⟨_, _, h⟩ := ok_of_bind h
    split at h
    · cases h
    · cases h
      exact { Spares.refl p with legs := List.prefix_append _ _ }

theorem value?_compileClasses {name : String} (ds : List Model.ClassDecl) (t : Table ClassDef)
    (h : ∀ d ∈ ds, d.name ≠ name) : Table.value? (compileClasses t ds).1 name = Table.value? t name := by
  induction ds generalizing t with
  | nil => rfl
  | cons d ds ih =>
    have hrest := fun t => ih t fun d' hd' => h d' (List.mem_cons_of_mem d hd')
    unfold compileClasses
    split
    · exact hrest t
    · exact (hrest _).trans (Table.value?_put_of_ne (h d List.mem_cons_self) t _)

/-- The bodies go into classes that the load itself has defined. -/
theorem Spares.compiled {m : Model} (h : Spares p q) (hnew : ∀ d ∈ m.classes, Table.has p.classes d.name = false) :
    Spares p (q.compiled m) := by
  refine { h with classes := fun name c hc => ?_ }
  -- a class that was there has a name that the load does not define
  refine (value?_compileClasses m.classes q.classes fun d hd hname => ?_).trans (h.classes name c hc)
  have hhas := hnew d hd
  rw [hname, Table.has, hc] at hhas
  cases hhas

theorem spares_load {m : Model} {e : PopulationError} (h : p.load m = (q, .error e)) : Spares p q := by
  have hstart : Spares p (p.enumerated m) := { Spares.refl p with }
  have hclasses := hstart.trans
    (untilError_related .refl .trans declareClass spares_declareClass (p.enumerated m) m.classes)
  have hloads := loads_load p m
  rw [h] at hloads
  cases hloads with
  | classFails h₁ =>
    rw [h₁] at hclasses
    exact hclasses
  | @associationFails q' _ _ h₁ h₂ =>
    -- compiling is no step that spares all of `q'`, only what was there before the load
    rw [h₁] at hclasses
    have hassociations := untilError_related .refl .trans declareAssociation spares_declareAssociation
      (q'.compiled m) m.associations
    rw [h₂] at hassociations
    exact (hclasses.compiled fun d hd => (new_of_untilError h₁ d hd).1).trans hassociations

end Population

/-! ## Operations in place -/

/-- The operation as an update in place. -/
def Operation.update : Operation → Update Unit
  | .load m => Update.load m >>= fun _ => pure ()
  | .defineClass name attributes => Update.defineClass name attributes
  | .defineAssociation id first second => Update.defineAssociation id first second
  | .defineLinkedAssociation id first second link => Update.defineLinkedAssociation id first second link
  | .defineFunction name action => modify (·.defineFunction name action)
  | .defineBridge entity name action => modify (·.defineBridge entity name action)
  | .definePortOperation port name action => modify (·.definePortOperation port name action)
  | .defineEnumeration name enumerators => modify (·.defineEnumeration name enumerators)
  | .create className => Update.create className >>= fun _ => pure ()
  | .delete r => Update.delete r
  | .relate a b id phrase => Update.relate a b id phrase
  | .unrelate a b id phrase => Update.unrelate a b id phrase
  | .writeAttribute r name v => Update.writeAttribute r name v
  | .generate e => Update.generate e
  | .takeEvents => modify (·.takeEvents.2)

namespace Update

/-- Every operation but a load is done at once, and what it does is what comes after it. -/
theorem update_eq_change (op : Operation) (h : ∀ m, op ≠ .load m) :
    ∃ f, op.update = change f ∧ ∀ p : Population, p.after op = p.orUnchanged (f p) := by
  cases op with
  | load m => exact absurd rfl (h m)
  | defineClass name attributes => exact ⟨_, defineClass_eq name attributes, fun _ => rfl⟩
  | defineAssociation id first second => exact ⟨_, defineAssociation_eq id first second, fun _ => rfl⟩
  | defineLinkedAssociation id first second link =>
    exact ⟨_, defineLinkedAssociation_eq id first second link, fun _ => rfl⟩
  | defineFunction | defineBridge | definePortOperation | defineEnumeration | takeEvents =>
    exact ⟨_, change_modify _, fun _ => rfl⟩
  | create className => exact ⟨_, create_eq className, fun _ => rfl⟩
  | delete r => exact ⟨_, delete_eq r, fun _ => rfl⟩
  | relate a b id phrase => exact ⟨_, relate_eq a b id phrase, fun _ => rfl⟩
  | unrelate a b id phrase => exact ⟨_, unrelate_eq a b id phrase, fun _ => rfl⟩
  | writeAttribute r name v => exact ⟨_, writeAttribute_eq r name v, fun _ => rfl⟩
  | generate e => exact ⟨_, generate_eq e, fun _ => rfl⟩

theorem load_error {m : Model} {p q : Population} {e : PopulationError}
    (h : (Operation.load m).update p = .error e q) : p.load m = (q, .error e) := by
  replace h : (load m >>= fun _ => pure ()) p = .error e q := h
  have hload := load_eq m p
  rcases hresult : p.load m with ⟨r, e' | rejected⟩
  · rw [hresult] at hload
    rw [bind_error hload] at h
    cases h
    rfl
  · rw [hresult] at hload
    rw [bind_ok hload] at h
    cases h

end Update

/-- An operation in place that fails, whatever its arguments and the population, leaves the population that comes
after it. If it is no load, that is the very population there was. If it is a load, then instances, links, the id
to give next, events, functions, entities, ports and all classes there were are the same, and legs and ways
across link classes are only added behind the others, so that every link is still one of the same leg. -/
theorem Operation.update_failed (op : Operation) (p q : Population) (e : PopulationError)
    (h : op.update p = .error e q) :
    q = p.after op ∧ match op with
      | .load _ => p.Spares q ∧ ∀ l ∈ p.links, ∀ leg, p.legs[l.leg]? = some leg → q.legs[l.leg]? = some leg
      | _ => q = p := by
  by_cases hop : ∀ m, op ≠ .load m
  · obtain ⟨f, hupdate, hafter⟩ := Update.update_eq_change op hop
    rw [hupdate] at h
    obtain ⟨rfl, hfails⟩ := Update.of_change_error h
    refine ⟨by rw [hafter, hfails]; rfl, ?_⟩
    split
    · exact absurd rfl (hop _)
    · rfl
  · push Not at hop
    obtain ⟨m, rfl⟩ := hop
    have hload := Update.load_error h
    have hspares := Population.spares_load hload
    refine ⟨?_, hspares, fun l _ leg hleg => hspares.leg hleg⟩
    show q = (p.load m).1
    rw [hload]

/-- A dog and its owner. -/
def walk : List Operation :=
  [.defineClass "Dog" [], .defineClass "Owner" [],
    .defineAssociation "R1" ⟨"Owner", none, false⟩ ⟨"Dog", none, true⟩,
    .create "Dog", .create "Owner", .relate ⟨"Dog", 1⟩ ⟨"Owner", 2⟩ "R1" none]

/-- Kennels for the dogs, and a relationship to cats, of which there are none. -/
def kennels : Model where
  component := none
  enumerations := [("Size", ["small", "large"])]
  classes := [⟨"Kennel", [], [], [], []⟩]
  associations := [⟨"R2", ⟨"Kennel", none, false⟩, ⟨"Dog", none, true⟩, none⟩,
    ⟨"R3", ⟨"Dog", none, true⟩, ⟨"Cat", none, true⟩, none⟩]
  functions := []
  entities := []
  ports := []

/-- The load ends behind its first association; the owner's dog is still the owner's. -/
theorem Operation.update_failed_kennels : ∃ q,
    (Operation.load kennels).update (Population.initial.afterAll walk) = .error (.unknownClass "Cat") q ∧
      q.legs.length = 2 ∧ (Population.initial.afterAll walk).Spares q ∧ q.links = [⟨0, ⟨"Owner", 2⟩, ⟨"Dog", 1⟩⟩] := by
  refine ⟨_, rfl, rfl, ?_⟩
  obtain ⟨_, hspares, _⟩ := Operation.update_failed (.load kennels) (Population.initial.afterAll walk) _ _ rfl
  exact ⟨hspares, hspares.links⟩

end ObjectAction
