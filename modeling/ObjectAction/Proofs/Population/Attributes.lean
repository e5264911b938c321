/-
What the attributes of instances hold over the history of a population. A class may declare an attribute more than
once: a new instance takes its first value from the last declaration, and what is written has to fit the first one.

Main statement: a value that is read can be written back and leaves everything as it is, unless it is the value that
a new instance got and the two declarations differ (`readAttribute_writeAttribute`).
-/
import ObjectAction.Proofs.Population.Handles
import ObjectAction.Proofs.Table

namespace ObjectAction

/-! ## Declarations of an attribute -/

/-- To write the value stores it as it is. -/
def AttributeType.Admits (t : AttributeType) (v : Value) : Prop := t.coerce? v = some v

theorem AttributeType.admits_initialValue (t : AttributeType) (id : Nat) : t.Admits (t.initialValue id) := by
  cases t <;> rfl

/-- What is stored by a write could be written again. -/
theorem AttributeType.admits_of_coerce {t : AttributeType} {v w : Value} (h : t.coerce? v = some w) :
    t.Admits w := by
  unfold Admits
  cases t <;> cases v <;> cases h <;> rfl

namespace ClassDef

/-- The type that an attribute is declared with first, which what is written has to fit. -/
def firstType? (c : ClassDef) (name : String) : Option AttributeType := c.attributes.lookup name

/-- The type that it is declared with last, which a new instance takes its value from. -/
def lastType? (c : ClassDef) (name : String) : Option AttributeType := c.attributes.reverse.lookup name

/-- What can stand in an attribute of the instance with that id: what a write has stored, or what a new instance
gets. -/
def Allows (c : ClassDef) (id : Nat) (name : String) (v : Value) : Prop :=
  ∃ first last, c.firstType? name = some first ∧ c.lastType? name = some last ∧
    (first.Admits v ∨ v = last.initialValue id)

/-- What is declared at all has a first and a last declaration. -/
theorem isSome_firstType? (c : ClassDef) (name : String) :
    (c.firstType? name).isSome = (c.lastType? name).isSome := by
  unfold firstType? lastType?
  rw [Bool.eq_iff_iff, List.lookup_isSome_iff, List.lookup_isSome_iff]
  simp

end ClassDef

namespace Population

theorem value?_foldl_put (attributes : List (String × AttributeType)) (id : Nat) (t : Table Value) (name : String) :
    Table.value? (attributes.foldl (fun t a => Table.put t a.1 (a.2.initialValue id)) t) name =
      ((attributes.reverse.lookup name).map (AttributeType.initialValue id)).or (Table.value? t name) := by
  induction attributes generalizing t with
  | nil => rfl
  | cons a attributes ih =>
    obtain ⟨key, type⟩ := a
    rw [List.foldl_cons, ih, List.reverse_cons, List.lookup_append]
    by_cases hkey : key = name
    · subst hkey
      rw [Table.value?_put_self, List.lookup_cons_self]
      cases List.lookup key attributes.reverse <;> rfl
    · have hne : (name == key) = false := beq_false_of_ne (Ne.symm hkey)
      rw [Table.value?_put_of_ne hkey]
      simp [List.lookup_cons, hne]

/-- The last declaration gives a new instance its value. -/
theorem value?_initialAttributes (c : ClassDef) (id : Nat) (name : String) :
    Table.value? (initialAttributes c id) name = (c.lastType? name).map (AttributeType.initialValue id) := by
  unfold initialAttributes
  rw [value?_foldl_put, Table.value?, Option.or_none]
  rfl

theorem ascending_initialAttributes (c : ClassDef) (id : Nat) : Table.Ascending (initialAttributes c id) := by
  have hfold : ∀ (attributes : List (String × AttributeType)) (t : Table Value), Table.Ascending t →
      Table.Ascending (attributes.foldl (fun t a => Table.put t a.1 (a.2.initialValue id)) t) := by
    intro attributes
    induction attributes with
    | nil => exact fun t h => h
    | cons a attributes ih => exact fun t h => ih _ (h.put a.1 _)
  exact hfold c.attributes [] List.Pairwise.nil

/-! ## What operations do to classes and attributes -/

/-- The instances are the same, and every class that was defined has the same attributes. -/
structure Redefines (p q : Population) : Prop where
  instances : q.instances = p.instances
  attributes : ∀ name c, Table.value? p.classes name = some c →
    ∃ c', Table.value? q.classes name = some c' ∧ c'.attributes = c.attributes

theorem Redefines.of_eq {p q : Population} (hinstances : q.instances = p.instances)
    (hclasses : q.classes = p.classes) : Redefines p q :=
  ⟨hinstances, fun name c hc => ⟨c, by rw [hclasses]; exact hc, rfl⟩⟩

theorem Redefines.refl (p : Population) : Redefines p p := .of_eq rfl rfl

theorem Redefines.trans {p q r : Population} (h₁ : Redefines p q) (h₂ : Redefines q r) : Redefines p r := by
  refine ⟨h₂.instances.trans h₁.instances, fun name c hc => ?_⟩
  obtain ⟨c', hc', heq⟩ := h₁.attributes name c hc
  obtain ⟨c'', hc'', heq'⟩ := h₂.attributes name c' hc'
  exact ⟨c'', hc'', heq'.trans heq⟩

/-- What an operation can do to the classes and to the attributes of the instances. -/
inductive Fills (p : Population) : Population → Prop
  | redefine {q : Population} (h : Redefines p q) : Fills p q
  | create {className : String} {c : ClassDef} (hc : p.classDef className = .ok c) :
    Fills p { p with
      instances := p.instances ++ [⟨className, p.nextId, initialAttributes c p.nextId⟩], nextId := p.nextId + 1 }
  | delete (r : InstanceRef) :
    Fills p { p with
      instances := p.instances.filter (·.ref ≠ r), links := p.links.filter (!·.touches r) }
  | write {r : InstanceRef} {i : Instance} {c : ClassDef} {name : String} {first : AttributeType} {v w : Value}
    (hi : p.tracked r = .ok i) (hc : p.classDef i.className = .ok c) (hfirst : c.firstType? name = some first)
    (hw : first.coerce? v = some w) : Fills p (p.setAttribute r name w)

theorem Fills.orUnchanged {p : Population} {e : Except PopulationError Population}
    (h : ∀ q, e = .ok q → Fills p q) : Fills p (p.orUnchanged e) := by
  cases e with
  | ok q => exact h q rfl
  | error => exact .redefine (.refl p)

section

variable {p q : Population}

theorem redefines_defineClass {name : String} {attributes : List (String × AttributeType)}
    (h : p.defineClass name attributes = .ok q) : Redefines p q := by
  unfold defineClass at h
  split at h
  · cases h
  · rename_i hnew
    cases h
    refine ⟨rfl, fun other c hc => ⟨c, ?_, rfl⟩⟩
    have hne : name ≠ other := by
      rintro rfl
      exact hnew (by rw [Table.has, hc]; rfl)
    exact (Table.value?_put_of_ne hne _ _).trans hc

theorem redefines_defineAssociation {id : String} {first second : End}
    (h : p.defineAssociation id first second = .ok q) : Redefines p q := by
  obtain ⟨_, _, h⟩ := ok_of_bind h
  obtain ⟨_, _, h⟩ := ok_of_bind h
  split at h
  · cases h
  · cases h
    exact .of_eq rfl rfl

theorem redefines_defineLinkedAssociation {id link : String} {first second : End}
    (h : p.defineLinkedAssociation id first second link = .ok q) : Redefines p q := by
  obtain ⟨_, _, h⟩ := ok_of_bind h
  obtain ⟨_, _, h⟩ := ok_of_bind h
  obtain ⟨_, _, h⟩ := ok_of_bind h
  split at h
  · cases h
  · cases h
    exact .of_eq rfl rfl

theorem redefines_declareAssociation {d : Model.AssociationDecl} (h : p.declareAssociation d = .ok q) :
    Redefines p q := by
  unfold declareAssociation at h
  split at h
  · exact redefines_defineLinkedAssociation h
  · exact redefines_defineAssociation h

/-- Bodies are compiled into classes without a change to their attributes. -/
theorem attributes_compileClasses (ds : List Model.ClassDecl) (t : Table ClassDef) {name : String} {c : ClassDef}
    (h : Table.value? t name = some c) :
    ∃ c', Table.value? (compileClasses t ds).1 name = some c' ∧ c'.attributes = c.attributes := by
  induction ds generalizing t c with
  | nil => exact ⟨c, h, rfl⟩
  | cons d ds ih =>
    unfold compileClasses
    split
    · exact ih t h
    · rename_i c₁ hc₁
      by_cases hname : d.name = name
      · subst hname
        obtain rfl : c₁ = c := Option.some.inj (hc₁.symm.trans h)
        obtain ⟨c', hc', heq⟩ := ih _ (Table.value?_put_self t d.name (c₁.compile d).1)
        exact ⟨c', hc', heq⟩
      · exact ih _ ((Table.value?_put_of_ne hname t _).trans h)

theorem redefines_load (p : Population) (m : Model) : Redefines p (p.load m).1 :=
  load_related Redefines.refl Redefines.trans m (fun _ => .of_eq rfl rfl) redefines_defineClass
    (fun _ => ⟨rfl, fun _ _ hc => attributes_compileClasses m.classes _ hc⟩) redefines_declareAssociation
    (fun _ _ _ _ => .of_eq rfl rfl) p

theorem fills_create {className : String} (h : (p.create className).map Prod.snd = .ok q) : Fills p q := by
  cases hc : p.create className with
  | error e => rw [hc] at h; cases h
  | ok rq =>
    rw [hc] at h
    obtain ⟨c, hclass, hcreate⟩ := ok_of_bind hc
    cases hcreate
    cases h
    exact .create hclass

theorem fills_writeAttribute {r : InstanceRef} {name : String} {v : Value}
    (h : p.writeAttribute r name v = .ok q) : Fills p q := by
  obtain ⟨i, hi, h⟩ := ok_of_bind h
  obtain ⟨c, hc, h⟩ := ok_of_bind h
  split at h
  · cases h
  · split at h
    · cases h
    · rename_i first hfirst
      split at h
      · cases h
      · rename_i w hw
        cases h
        exact .write hi hc hfirst hw

end

theorem fills_after (p : Population) (op : Operation) : Fills p (p.after op) := by
  cases op with
  | load m => exact .redefine (redefines_load p m)
  | defineClass => exact .orUnchanged fun q h => .redefine (redefines_defineClass h)
  | defineAssociation => exact .orUnchanged fun q h => .redefine (redefines_defineAssociation h)
  | defineLinkedAssociation => exact .orUnchanged fun q h => .redefine (redefines_defineLinkedAssociation h)
  | defineFunction | defineBridge | definePortOperation | defineEnumeration | takeEvents =>
    exact .redefine (.of_eq rfl rfl)
  | create className => exact .orUnchanged fun q h => fills_create h
  | delete r =>
    refine .orUnchanged fun q h => ?_
    obtain rfl := delete_ok h
    exact .delete r
  | relate a b id phrase =>
    refine .orUnchanged fun q h => ?_
    obtain ⟨r, _, _, _, _, _, _, rfl⟩ := relate_ok h
    exact .redefine (.of_eq rfl rfl)
  | unrelate a b id phrase =>
    refine .orUnchanged fun q h => ?_
    obtain ⟨r, _, _, rfl⟩ := unrelate_ok h
    exact .redefine (.of_eq rfl rfl)
  | writeAttribute r name v => exact .orUnchanged fun q h => fills_writeAttribute h
  | generate e =>
    refine .orUnchanged fun q h => ?_
    obtain rfl := generate_ok h
    exact .redefine (.of_eq rfl rfl)

/-! ## What instances hold -/

end Population

/-- The instance is one of a class that is defined, and its attributes hold what this class allows. -/
structure Instance.Conforms (i : Instance) (classes : Table ClassDef) : Prop where
  ascending : Table.Ascending i.attributes
  allowed : ∃ c, Table.value? classes i.className = some c ∧
    ∀ name v, Table.value? i.attributes name = some v → c.Allows i.id name v

theorem ClassDef.Allows.of_attributes {c c' : ClassDef} {id : Nat} {name : String} {v : Value}
    (h : c.Allows id name v) (heq : c'.attributes = c.attributes) : c'.Allows id name v := by
  unfold ClassDef.Allows ClassDef.firstType? ClassDef.lastType? at *
  rw [heq]
  exact h

/-- A write stores what the first declaration admits. -/
theorem Instance.Conforms.put {i : Instance} {classes : Table ClassDef} (h : i.Conforms classes) {c : ClassDef}
    (hc : Table.value? classes i.className = some c) {name : String} {first : AttributeType}
    (hfirst : c.firstType? name = some first) {w : Value} (hw : first.Admits w) :
    Instance.Conforms { i with attributes := Table.put i.attributes name w } classes := by
  refine ⟨h.ascending.put name w, c, hc, fun other v hv => ?_⟩
  obtain ⟨c', hc', hallowed⟩ := h.allowed
  obtain rfl : c' = c := Option.some.inj (hc'.symm.trans hc)
  by_cases hname : name = other
  · subst hname
    rw [Table.value?_put_self] at hv
    cases hv
    have hsome := c'.isSome_firstType? name
    rw [hfirst] at hsome
    obtain ⟨last, hlast⟩ := Option.isSome_iff_exists.mp hsome.symm
    exact ⟨first, last, hfirst, hlast, .inl hw⟩
  · rw [Table.value?_put_of_ne hname] at hv
    exact hallowed other v hv

namespace Population

theorem mem_of_tracked {p : Population} {r : InstanceRef} {i : Instance} (h : p.tracked r = .ok i) :
    i ∈ p.instances ∧ i.ref = r := by
  unfold tracked at h
  split at h
  · rename_i j hj
    cases h
    have hr := List.find?_some hj
    exact ⟨List.mem_of_find?_eq_some hj, of_decide_eq_true hr⟩
  · cases h

def Conforms (p : Population) : Prop := ∀ i ∈ p.instances, i.Conforms p.classes

/-- A new instance holds what the last declarations give it. -/
theorem conforms_new {p : Population} {className : String} {c : ClassDef} (hc : p.classDef className = .ok c)
    (id : Nat) : Instance.Conforms ⟨className, id, initialAttributes c id⟩ p.classes := by
  refine ⟨ascending_initialAttributes c id, c, value?_of_classDef hc, fun name v hv => ?_⟩
  rw [value?_initialAttributes] at hv
  obtain ⟨last, hlast, rfl⟩ := Option.map_eq_some_iff.mp hv
  have hsome := c.isSome_firstType? name
  rw [hlast] at hsome
  obtain ⟨first, hfirst⟩ := Option.isSome_iff_exists.mp hsome
  exact ⟨first, last, hfirst, hlast, .inr rfl⟩

theorem Conforms.fills {p q : Population} (h : p.Conforms) (hstep : Fills p q) : q.Conforms := by
  cases hstep with
  | redefine hq =>
    intro i hi
    rw [hq.instances] at hi
    obtain ⟨hascending, c, hc, hallowed⟩ := h i hi
    obtain ⟨c', hc', heq⟩ := hq.attributes _ c hc
    exact ⟨hascending, c', hc', fun name v hv => (hallowed name v hv).of_attributes heq⟩
  | create hc =>
    intro i hi
    rcases List.mem_append.mp hi with hi | hi
    · exact h i hi
    · rw [List.mem_singleton.mp hi]
      exact conforms_new hc p.nextId
  | delete r => exact fun i hi => h i (List.mem_of_mem_filter hi)
  | @write r i c name first v w hi hc hfirst hw =>
    intro j hj
    obtain ⟨j', hj', rfl⟩ := List.mem_map.mp hj
    show Instance.Conforms (if j'.ref = r then _ else j') p.classes
    split
    · rename_i hr
      have hclass : j'.className = i.className := congrArg InstanceRef.className (hr.trans (mem_of_tracked hi).2.symm)
      exact (h j' hj').put (hclass ▸ value?_of_classDef hc) hfirst (AttributeType.admits_of_coerce hw)
    · exact h j' hj'

theorem conforms_afterAll (ops : List Operation) : (initial.afterAll ops).Conforms :=
  afterAll_of_after nofun (fun p op h => h.fills (fills_after p op)) ops

/-! ## Writing back what was read -/

/-- No two instances have the same handle. -/
theorem nodup_refs_afterAll (ops : List Operation) : (initial.afterAll ops).refs.Nodup := by
  refine List.pairwise_map.mpr ((instances_ascending ops).imp fun hlt heq => ?_)
  exact hlt.ne (congrArg InstanceRef.id heq)

section

variable {p : Population} {r : InstanceRef} {name : String} {v : Value}

theorem readAttribute_stored (h : p.readAttribute r name = .ok (.stored v)) :
    ∃ i c, p.tracked r = .ok i ∧ p.classDef i.className = .ok c ∧ Table.value? c.derived name = none ∧
      Table.value? i.attributes name = some v := by
  obtain ⟨i, hi, h⟩ := ok_of_bind h
  obtain ⟨c, hc, h⟩ := ok_of_bind h
  split at h
  · cases h
  · rename_i hderived hv
    cases h
    exact ⟨i, c, hi, hc, hderived, hv⟩
  · cases h

variable {i : Instance} {c : ClassDef} {first : AttributeType}

theorem writeAttribute_eq (hi : p.tracked r = .ok i) (hc : p.classDef i.className = .ok c)
    (hderived : Table.value? c.derived name = none) (hfirst : c.firstType? name = some first) :
    p.writeAttribute r name v = match first.coerce? v with
      | none => .error (.attributeType i.className name first.name v.typeName)
      | some w => .ok (p.setAttribute r name w) := by
  unfold ClassDef.firstType? at hfirst
  simp only [writeAttribute, hi, hc, bind, Except.bind, Table.has, hderived, hfirst, Option.isSome_none,
    Bool.false_eq_true, if_false]
  rfl

/-- To set an attribute changes nothing exactly if it holds the value already. -/
theorem setAttribute_eq_self_iff (hnodup : p.refs.Nodup) (hi : p.tracked r = .ok i)
    (hascending : Table.Ascending i.attributes) {w : Value} :
    p.setAttribute r name w = p ↔ Table.value? i.attributes name = some w := by
  obtain ⟨hmem, href⟩ := mem_of_tracked hi
  constructor
  · intro heq
    have hmap := (congrArg Population.instances heq).trans (List.map_id p.instances).symm
    have hself := List.map_inj_left.mp hmap i hmem
    simp only [href, if_true, id_eq] at hself
    have hput := congrArg Instance.attributes hself
    rw [← hput]
    exact Table.value?_put_self ..
  · intro hw
    have hmap : p.instances.map (fun j =>
        if j.ref = r then { j with attributes := Table.put j.attributes name w } else j) = p.instances := by
      refine (List.map_congr_left fun j hj => ?_).trans (List.map_id p.instances)
      split
      · rename_i hr
        -- the handle is that of the one instance which holds the value
        obtain rfl : j = i := List.inj_on_of_nodup_map hnodup hj hmem (hr.trans href.symm)
        rw [hascending.put_self hw]
        rfl
      · rfl
    exact congrArg (fun instances => { p with instances }) hmap

end

theorem tracked_new {p : Population} (h : p.Numbered) {i : Instance} (hid : i.id = p.nextId) :
    Population.tracked { p with instances := p.instances ++ [i], nextId := p.nextId + 1 } i.ref = .ok i := by
  have hfresh : p.instances.find? (fun j => decide (j.ref = i.ref)) = none := by
    refine List.find?_eq_none.mpr fun j hj hr => ?_
    have hlt := h j.ref (List.mem_map_of_mem hj)
    rw [of_decide_eq_true hr] at hlt
    exact absurd (hid ▸ hlt) (lt_irrefl _)
  unfold tracked
  rw [List.find?_append, hfresh]
  simp

theorem numbered_afterAll (ops : List Operation) : (initial.afterAll ops).Numbered :=
  afterAll_of_after nofun (fun _ op h => h.after op) ops

/-- Whatever happened to a population, a value that is read from an attribute is allowed there. It can be written back,
and nothing changes, exactly if the first declaration of the attribute admits it; otherwise it is what a new instance
gets from the last one. Where both declarations have the same type, every value that is read can be written back. And
what an instance gets when it is created is the value of the last declaration, whatever the first one is. -/
theorem readAttribute_writeAttribute (ops : List Operation) :
    (∀ r name v, (initial.afterAll ops).readAttribute r name = .ok (.stored v) →
      ∃ c first last, (initial.afterAll ops).classDef r.className = .ok c ∧
        c.firstType? name = some first ∧ c.lastType? name = some last ∧
        ((initial.afterAll ops).writeAttribute r name v = .ok (initial.afterAll ops) ↔ first.Admits v) ∧
        (first.Admits v ∨ v = last.initialValue r.id) ∧
        (first = last → (initial.afterAll ops).writeAttribute r name v = .ok (initial.afterAll ops))) ∧
    ∀ className r q c name last, (initial.afterAll ops).create className = .ok (r, q) →
      q.classDef className = .ok c → Table.value? c.derived name = none → c.lastType? name = some last →
      q.readAttribute r name = .ok (.stored (last.initialValue r.id)) := by
  generalize hp : initial.afterAll ops = p
  have hconforms : p.Conforms := hp ▸ conforms_afterAll ops
  have hnodup : p.refs.Nodup := hp ▸ nodup_refs_afterAll ops
  have hnumbered : p.Numbered := hp ▸ numbered_afterAll ops
  refine ⟨fun r name v hread => ?_, fun className r q c name last hcreate hc hderived hlast => ?_⟩
  · obtain ⟨i, c, hi, hc, hderived, hv⟩ := readAttribute_stored hread
    obtain ⟨hmem, rfl⟩ := mem_of_tracked hi
    obtain ⟨hascending, c', hc', hallowed⟩ := hconforms i hmem
    obtain rfl : c' = c := Option.some.inj (hc'.symm.trans (value?_of_classDef hc))
    obtain ⟨first, last, hfirst, hlast, hholds⟩ := hallowed name v hv
    have hwrite : p.writeAttribute i.ref name v = .ok p ↔ first.Admits v := by
      rw [writeAttribute_eq hi hc hderived hfirst]
      unfold AttributeType.Admits
      cases hcoerce : first.coerce? v with
      | none => simp
      | some w =>
        show Except.ok (p.setAttribute i.ref name w) = Except.ok p ↔ _
        rw [Except.ok.injEq, setAttribute_eq_self_iff hnodup hi hascending, hv, Option.some.injEq,
          Option.some.injEq, eq_comm]
    refine ⟨c', first, last, hc, hfirst, hlast, hwrite, hholds, fun heq => hwrite.mpr ?_⟩
    rcases hholds with hadmits | rfl
    · exact hadmits
    · exact heq ▸ last.admits_initialValue _
  · obtain ⟨c', hc', hresult⟩ := ok_of_bind hcreate
    cases hresult
    obtain rfl : c' = c := Except.ok.inj (hc'.symm.trans hc)
    have hnew := tracked_new hnumbered (i := ⟨className, p.nextId, initialAttributes c' p.nextId⟩) rfl
    have hvalue := value?_initialAttributes c' p.nextId name
    rw [hlast] at hvalue
    simp only [readAttribute, hnew, hc, bind, Except.bind, hderived, hvalue]
    rfl

/-- A tag that is declared twice, where both declarations hold integers, and a dog with the tag that it got. -/
def taggedHistory : List Operation :=
  [.defineClass "Dog" [("tag", .integer), ("name", .string), ("tag", .uniqueId)], .create "Dog"]

theorem readAttribute_writeAttribute_taggedHistory :
    (initial.afterAll taggedHistory).readAttribute ⟨"Dog", 1⟩ "tag" = .ok (.stored (.integer 1)) ∧
      (initial.afterAll taggedHistory).writeAttribute ⟨"Dog", 1⟩ "tag" (.integer 1) =
        .ok (initial.afterAll taggedHistory) := by
  have hread : (initial.afterAll taggedHistory).readAttribute ⟨"Dog", 1⟩ "tag" = .ok (.stored (.integer 1)) := rfl
  obtain ⟨c, first, last, hc, hfirst, -, hwrite, -⟩ := (readAttribute_writeAttribute taggedHistory).1 _ _ _ hread
  cases hc
  cases hfirst
  exact ⟨hread, hwrite.mpr rfl⟩

/-- With a number first and a text last, what a new instance holds is refused. -/
theorem readAttribute_not_writable :
    let p := initial.afterAll [.defineClass "A" [("x", .integer), ("x", .string)], .create "A"]
    p.readAttribute ⟨"A", 1⟩ "x" = .ok (.stored (.string "")) ∧
      p.writeAttribute ⟨"A", 1⟩ "x" (.string "") = .error (.attributeType "A" "x" "integer" "string") :=
  ⟨rfl, rfl⟩

end Population

end ObjectAction
