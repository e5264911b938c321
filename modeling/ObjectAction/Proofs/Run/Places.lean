/-
The laws of index places. What is written at an index place of a variable is read there, and what is read at the
places of other variables and at paths that differ stays the same. To read an index place can write its variable, and
can run the body of an attribute; but only what such a body does to the population can change what is read at an index
place afterwards.

Main statement: `index_place_laws`. To read a variable at indices changes nothing that is read afterwards
(`get_var_leaves_readings`). For a body that changes the population, `reading_log_counts` shows that it does.
-/
import ObjectAction.Proofs.Run.Indexing
import ObjectAction.Proofs.Run.Isolation
import ObjectAction.Proofs.Run.Signal

namespace ObjectAction

namespace Place

/-- Where the indices of a place begin. -/
def root : Place → Place
  | index base _ => base.root
  | p => p

def isIndex : Place → Bool
  | index _ _ => true
  | _ => false

theorem root_along (p : Place) (path : List Nat) : (p.along path).root = p.root := by
  induction path generalizing p with
  | nil => rfl
  | cons i path ih => exact ih (.index p i)

/-- The indices begin at an attribute that is computed by an action. -/
def Computed (p : Population) (q : Place) : Prop :=
  ∃ r name a, q.root = .field r name ∧ p.readAttribute r name = .ok (.derived a)

theorem not_computed_var_along (p : Population) (name : String) (path : List Nat) :
    ¬ ((Place.var name).along path).Computed p := by
  rintro ⟨r, field, a, hroot, -⟩
  rw [root_along] at hroot
  cases hroot

end Place

/-- The same is read at every index place. -/
structure RunState.Alike (s s' : RunState) : Prop where
  population : s'.population = s.population
  activation : s'.activation = s.activation
  scopes : s.scopes.Alike s'.scopes

namespace Run

open Fault (isRecoverable)

variable {α β : Type} {s s' : RunState}

/-! ## What a step gives -/

theorem result_ofExcept (r : Except Fault α) (s : RunState) : (ofExcept r s).result = some r := by
  cases r with
  | ok | error => rfl

/-- A step that does not see the variables gives the same where the population and the activation are the same. -/
theorem Detached.result_eq {x : Run α} (h : Detached x) (hp : s'.population = s.population)
    (ha : s'.activation = s.activation) : (x s').result = (x s).result := by
  have hmoved : ∀ s₁ : RunState, s₁.population = s.population → s₁.activation = s.activation →
      (x s₁).result = (x ⟨s.population, .empty, s.activation, #[]⟩).result := by
    intro s₁ hp₁ ha₁
    have heq : s₁ = RunState.moved ⟨s.population, .empty, s.activation, #[]⟩ s₁.scopes s₁.journal := by
      unfold RunState.moved
      rw [← hp₁, ← ha₁, Array.append_empty]
    rw [heq, h, Outcome.result_mapState]
  rw [hmoved s' hp ha, hmoved s rfl rfl]

theorem leaves_bind {F : Fault → Bool} {P : RunState → Prop} {x : Run α} {f : α → Run β} (hx : (x s).Leaves F P)
    (hf : ∀ a s₁, P s₁ → (f a s₁).Leaves F P) : ((x >>= f) s).Leaves F P := by
  show (Run.bind x f s).Leaves F P
  unfold Run.bind
  cases hxs : x s with
  | done a s₁ =>
    rw [hxs] at hx
    exact hf a s₁ hx
  | failed f s₁ =>
    rw [hxs] at hx
    exact hx
  | exhausted => trivial

theorem leaves_ofExcept {P : RunState → Prop} (r : Except Fault α) (hs : P s) : (ofExcept r s).Leaves anyFault P := by
  cases r with
  | ok a => exact hs
  | error f => exact ⟨rfl, hs⟩

section

variable {derive : Action → InstanceRef → String → Run Value}

theorem get_field_eq (r : InstanceRef) (name : String) (s : RunState) :
    get derive (.field r name) s =
      match s.population.readAttribute r name with
      | .ok (.stored v) => .done v s
      | .ok (.derived a) => derive a r name s
      | .error e => .failed (.population e) s := by
  show Run.bind (ask (·.readAttribute r name)) _ s = _
  unfold Run.bind ask
  dsimp only
  cases s.population.readAttribute r name with
  | error e => rfl
  | ok content =>
    cases content with
    | stored v => rfl
    | derived a => rfl

theorem result_get_index {base : Place} (hbase : ∀ name, base ≠ .var name) (i : Nat) (s : RunState) :
    (get derive (.index base i) s).result = (get derive base s).result.map (· >>= (follow · [i])) := by
  rw [get_index derive hbase]
  show (Run.bind (get derive base) _ s).result = _
  unfold Run.bind
  cases get derive base s with
  | done w s₁ =>
    show _ = some (elements w >>= fun items => .ok (items.getD i .null))
    show (Run.bind (ofExcept (elements w)) _ s₁).result = _
    cases elements w with
    | ok | error => rfl
  | failed f s₁ => rfl
  | exhausted => rfl

theorem result_get_var_along (hs : s.scopes.Open) (name : String) {path : List Nat} (hpath : path ≠ []) :
    (get derive ((Place.var name).along path) s).result = some (s.scopes.reads name path) := by
  obtain ⟨t, -, -, heq⟩ := get_var_along derive hs name hpath
  rw [heq, result_ofExcept]

/-! ## Reading does not change what is read -/

section

variable (hd : ∀ a r name, Detached (derive a r name))

include hd

/-- In states that are alike, the same is read at every place but a variable itself. -/
theorem result_get_alike (h : s.Alike s') {q : Place} (hq : ∀ name, q ≠ .var name) :
    (get derive q s').result = (get derive q s).result := by
  induction q with
  | value v => rfl
  | var name => exact absurd rfl (hq name)
  | field r name =>
    rw [get_field_eq, get_field_eq, h.population]
    cases s.population.readAttribute r name with
    | error e => rfl
    | ok content =>
      cases content with
      | stored v => rfl
      | derived a => exact (hd a r name).result_eq h.population h.activation
  | index base i ih =>
    by_cases hvar : ∃ name, base = .var name
    · obtain ⟨name, rfl⟩ := hvar
      have hpath : [i] ≠ [] := List.cons_ne_nil i []
      rcases s.scopes.open_or with hopen | ⟨e, hclosed⟩
      · refine (result_get_var_along (h.scopes.isOpen hopen) name hpath).trans ?_
        rw [h.scopes.reads_eq name hpath]
        exact (result_get_var_along hopen name hpath).symm
      · -- where no block is open, reading fails in both
        have hsame : s'.scopes = s.scopes := h.scopes.eq_of_closed hclosed
        have hget := get_var_along_closed derive hclosed name hpath
        have hget' := get_var_along_closed derive (hsame ▸ hclosed) name hpath
        exact (congrArg Outcome.result hget').trans (congrArg Outcome.result hget).symm
    · have hbase := not_exists.mp hvar
      rw [result_get_index hbase, result_get_index hbase, ih hbase]
  | derived =>
    show some (Except.ok (computed s')) = some (Except.ok (computed s))
    unfold computed
    rw [h.activation]

end

/-- To read a place leaves variables and the activation such that the same is read, and the population as well unless
an attribute is computed. -/
theorem get_leaves (hsame : ∀ a r name s, (derive a r name s).Leaves isRecoverable s.Same) (p : Place) (s : RunState) :
    (get derive p s).Leaves anyFault fun s' =>
      s'.activation = s.activation ∧ s.scopes.Alike s'.scopes ∧
        (¬ p.Computed s.population → s'.population = s.population) := by
  have hkept : ∀ {q : Place}, s.activation = s.activation ∧ s.scopes.Alike s.scopes ∧
      (¬ q.Computed s.population → s.population = s.population) := ⟨rfl, .same, fun _ => rfl⟩
  induction p with
  | value v => exact hkept
  | var name =>
    show (ask (resolveName s.scopes · name) s).Leaves anyFault _
    unfold ask
    dsimp only
    cases resolveName s.scopes s.population name with
    | ok v => exact hkept
    | error e => exact ⟨rfl, hkept⟩
  | field r name =>
    rw [get_field_eq]
    cases hread : s.population.readAttribute r name with
    | error e => exact ⟨rfl, hkept⟩
    | ok content =>
      cases content with
      | stored v => exact hkept
      | derived a =>
        refine ((hsame a r name s).allow fun _ _ => rfl).mono fun s' hs' => ⟨hs'.activation, ?_, fun hnot => ?_⟩
        · rw [hs'.scopes]
          exact .same
        · exact absurd ⟨r, name, a, rfl, hread⟩ hnot
  | index base i ih =>
    by_cases hvar : ∃ name, base = .var name
    · obtain ⟨name, rfl⟩ := hvar
      rcases s.scopes.open_or with hopen | ⟨e, hclosed⟩
      · obtain ⟨t, halike, -, heq⟩ := get_var_index derive hopen name i
        rw [heq]
        exact leaves_ofExcept _ ⟨rfl, halike, fun _ => rfl⟩
      · have hget : get derive (.index (.var name) i) s = .failed (.scope e) s :=
          get_var_along_closed derive hclosed name (List.cons_ne_nil i [])
        rw [hget]
        exact ⟨rfl, hkept⟩
    · rw [get_index derive (not_exists.mp hvar)]
      exact leaves_bind ih fun w s₁ h₁ => leaves_bind (leaves_ofExcept _ h₁) fun items s₂ h₂ => h₂
  | derived => exact hkept

/-! ## Writing -/

theorem result_readVariable {name : String} (hp : s'.population = s.population)
    (hlookup : s'.scopes.lookup name = s.scopes.lookup name) :
    (readVariable name s').result = (readVariable name s).result := by
  show (ask (resolveName s'.scopes · name) s').result = (ask (resolveName s.scopes · name) s).result
  unfold ask resolveName
  rw [hp, hlookup]
  cases s.scopes.lookup name with
  | some v => rfl
  | none =>
    dsimp only
    cases (s.population.findGlobal name).map Value.global with
    | ok | error => rfl

/-- A variable that holds what it did is read in the same way, with indices and without. -/
theorem result_get_lookup {name : String} (hs : s.scopes.Open) (hs' : s'.scopes.Open)
    (hp : s'.population = s.population) (hlookup : s'.scopes.lookup name = s.scopes.lookup name) (path : List Nat) :
    (get derive ((Place.var name).along path) s').result = (get derive ((Place.var name).along path) s).result := by
  by_cases hpath : path = []
  · subst hpath
    exact result_readVariable hp hlookup
  · rw [result_get_var_along hs name hpath, result_get_var_along hs' name hpath]
    unfold Scopes.reads Scopes.held
    rw [hlookup]

section

variable {name : String} {path : List Nat} {v : Value}

/-- To write an index place of a variable changes nothing but variables, whether it is done or fails. -/
theorem set_leaves (hpath : path ≠ []) (v : Value) (s : RunState) :
    (set derive ((Place.var name).along path) v s).Leaves anyFault fun s' => s'.population = s.population := by
  rcases s.scopes.open_or with hopen | ⟨e, hclosed⟩
  · obtain ⟨t, r, heq, -⟩ := set_var_along derive hopen name hpath v
    rw [heq]
    exact leaves_ofExcept r rfl
  · rw [set_var_along_closed derive hclosed name hpath v]
    exact ⟨rfl, rfl⟩

theorem set_laws (hpath : path ≠ []) (hset : set derive ((Place.var name).along path) v s = .done () s') :
    (get derive ((Place.var name).along path) s').result = some (.ok v) ∧
    (∀ other q, other ≠ name →
      (get derive ((Place.var other).along q) s').result = (get derive ((Place.var other).along q) s).result) ∧
    ∀ q, Diverge path q →
      (get derive ((Place.var name).along q) s').result = (get derive ((Place.var name).along q) s).result := by
  rcases s.scopes.open_or with hopen | ⟨e, hclosed⟩
  · obtain ⟨t, r, heq, hopen', hothers, hwritten⟩ := set_var_along derive hopen name hpath v
    rw [heq] at hset
    cases r with
    | error f => cases hset
    | ok u =>
      cases hset
      obtain ⟨hhere, hapart⟩ := hwritten rfl
      refine ⟨?_, ?_, ?_⟩
      · rw [result_get_var_along hopen' name hpath]
        exact congrArg some hhere
      · intro other q hn
        apply result_get_lookup hopen
        · exact hopen'
        · rfl
        · exact hothers other hn
      · intro q hq
        have hq' : q ≠ [] := by
          rintro rfl
          exact not_diverge_nil _ hq
        rw [result_get_var_along hopen name hq', result_get_var_along hopen' name hq']
        exact congrArg some (hapart q hq)
  · rw [set_var_along_closed derive hclosed name hpath v] at hset
    cases hset

/-- What is not written is null: an index of a variable that is not bound, or bound to null. -/
theorem result_get_unwritten (hs : s.scopes.Open)
    (hlookup : s.scopes.lookup name = none ∨ s.scopes.lookup name = some .null) {i : Nat} (hi : i < maxArrayLength)
    (rest : List Nat) : (get derive ((Place.var name).along (i :: rest)) s).result = some (.ok .null) := by
  have helements : elements (s.scopes.held name) = .ok [] := by
    unfold Scopes.held
    rcases hlookup with h | h
    · rw [h]
      rfl
    · rw [h]
      rfl
  rw [result_get_var_along hs name (List.cons_ne_nil i rest)]
  show some (element (s.scopes.held name) i >>= _) = _
  rw [element_of_elements helements, element_array, if_pos (.inr hi)]
  exact congrArg some (follow_null rest)

end

/-! ## Writing again and again -/

/-- A write of an index place of a variable. -/
structure IndexWrite where
  name : String
  path : List Nat
  value : Value

/-- The write does not reach what is read at the end of a path from a variable. -/
def IndexWrite.Misses (w : IndexWrite) (name : String) (q : List Nat) : Prop := w.name ≠ name ∨ Diverge w.path q

def writeAll (derive : Action → InstanceRef → String → Run Value) : List IndexWrite → Run Unit
  | [] => return ()
  | w :: rest => do
    set derive ((Place.var w.name).along w.path) w.value
    writeAll derive rest

theorem writeAll_misses {ws : List IndexWrite} (hws : ∀ w ∈ ws, w.path ≠ [])
    (hall : writeAll derive ws s = .done () s') {name : String} {q : List Nat} (hq : ∀ w ∈ ws, w.Misses name q) :
    (get derive ((Place.var name).along q) s').result = (get derive ((Place.var name).along q) s).result := by
  induction ws generalizing s with
  | nil =>
    cases hall
    rfl
  | cons w ws ih =>
    obtain ⟨hw, hrest⟩ := List.forall_mem_cons.mp hws
    obtain ⟨hmiss, hmisses⟩ := List.forall_mem_cons.mp hq
    obtain ⟨u, s₁, hset, hall⟩ := done_of_bind hall
    obtain ⟨-, hothers, hapart⟩ := set_laws hw hset
    -- one write leaves what is read there, and so do those after it
    have hone : (get derive ((Place.var name).along q) s₁).result =
        (get derive ((Place.var name).along q) s).result := by
      rcases hmiss with hn | hdiverge
      · exact hothers name q (Ne.symm hn)
      · by_cases hn : name = w.name
        · subst hn
          exact hapart q hdiverge
        · exact hothers name q hn
    exact (ih hrest hall hmisses).trans hone

end

/-! ## The laws -/

theorem computeDerived_same (host : Host) (fuel : Nat) (a : Action) (r : InstanceRef) (name : String)
    (s : RunState) : (computeDerived host (activate host fuel) a r name s).Leaves isRecoverable s.Same := by
  have hquiet := fun a b => (quiet_activate host fuel a b).allow (G := isRecoverable) never_allowed
  exact (quiet_computeDerived hquiet host a r name s).leaves

/-- To read a place leaves what is read at every index place, unless the population is changed by it; and that is so
only if an attribute is computed for it. -/
theorem get_leaves_readings (host : Host) (fuel : Nat) (p : Place) (s : RunState) :
    let derive := computeDerived host (activate host fuel)
    (get derive p s).Leaves anyFault fun s' =>
      (¬ p.Computed s.population → s'.population = s.population) ∧
      (s'.population = s.population → ∀ q, q.isIndex = true → (get derive q s').result = (get derive q s).result) := by
  intro derive
  refine (get_leaves (computeDerived_same host fuel) p s).mono fun s' hs' => ?_
  obtain ⟨hactivation, hscopes, hpopulation⟩ := hs'
  refine ⟨hpopulation, fun hp q hq => ?_⟩
  have hdetached : ∀ a r name, Detached (derive a r name) :=
    fun a r name => detached_computeDerived (detached_activate host fuel) host a r name
  refine result_get_alike hdetached ⟨hp, hactivation, hscopes⟩ ?_
  rintro name rfl
  cases hq

/-- To read a variable, at any path of indices, leaves what is read at every index place, although it can make the
variable's array and let it grow. -/
theorem get_var_leaves_readings (host : Host) (fuel : Nat) (name : String) (path : List Nat) (s : RunState) :
    let derive := computeDerived host (activate host fuel)
    (get derive ((Place.var name).along path) s).Leaves anyFault fun s' =>
      s'.population = s.population ∧ ∀ q, q.isIndex = true → (get derive q s').result = (get derive q s).result := by
  intro derive
  refine (get_leaves_readings host fuel ((Place.var name).along path) s).mono fun s' hs' => ?_
  have hpopulation := hs'.1 (Place.not_computed_var_along s.population name path)
  exact ⟨hpopulation, hs'.2 hpopulation⟩

/-- The laws of index places, in every state of a run.

What is written at an index place of a variable is read there afterwards. Whatever is read at a place of another
variable, or at a path that differs at a common depth, is read as before; so what no write reaches stays as it was
through any number of writes, which is null in a variable that was not bound. The population is not touched.

To read a place leaves what is read at every index place, unless the population is changed by it; and that is
so only if an attribute is computed for it. In a body that computes an attribute, what is written at an index place of
the attribute is read there. -/
theorem index_place_laws (host : Host) (fuel : Nat) (s : RunState) :
    let derive := computeDerived host (activate host fuel)
    let read := fun (q : Place) (s : RunState) => (get derive q s).result
    (∀ name path v, path ≠ [] →
      ((set derive ((Place.var name).along path) v s).Leaves anyFault fun s' => s'.population = s.population) ∧
      ∀ s', set derive ((Place.var name).along path) v s = .done () s' →
        read ((Place.var name).along path) s' = some (.ok v) ∧
        (∀ other q, other ≠ name → read ((Place.var other).along q) s' = read ((Place.var other).along q) s) ∧
        ∀ q, Diverge path q → read ((Place.var name).along q) s' = read ((Place.var name).along q) s) ∧
    (∀ ws s', (∀ w ∈ ws, w.path ≠ []) → writeAll derive ws s = .done () s' →
      ∀ name q, (∀ w ∈ ws, w.Misses name q) →
        read ((Place.var name).along q) s' = read ((Place.var name).along q) s) ∧
    (∀ name i rest, s.scopes.Open → s.scopes.lookup name = none ∨ s.scopes.lookup name = some .null →
      i < maxArrayLength → read ((Place.var name).along (i :: rest)) s = some (.ok .null)) ∧
    (∀ p, (get derive p s).Leaves anyFault fun s' =>
      (¬ p.Computed s.population → s'.population = s.population) ∧
      (s'.population = s.population → ∀ q, q.isIndex = true → read q s' = read q s)) ∧
    ∀ cell path v s', s.activation.derived = some cell →
      set derive (Place.derived.along path) v s = .done () s' →
        read (Place.derived.along path) s' = some (.ok v) ∧
        ∀ q, Diverge path q → read (Place.derived.along q) s' = read (Place.derived.along q) s := by
  intro derive read
  refine ⟨?_, ?_, ?_, ?_, ?_⟩
  · intro name path v hpath
    exact ⟨set_leaves hpath v s, fun s' hset => set_laws hpath hset⟩
  · intro ws s' hws hall name q hq
    exact writeAll_misses hws hall hq
  · intro name i rest hs hlookup hi
    exact result_get_unwritten hs hlookup hi rest
  · exact fun p => get_leaves_readings host fuel p s
  · intro cell path v s' hcell hset
    obtain ⟨hhere, hapart⟩ := set_derived_along derive hcell hset
    have hread : ∀ q s, read (Place.derived.along q) s = some (follow (computed s) q) := by
      intro q s
      show (get derive _ s).result = _
      rw [get_derived_along, result_ofExcept]
    refine ⟨?_, fun q hq => ?_⟩
    · rw [hread, hhere]
    · rw [hread, hread, hapart q hq]

/-- A body computes an attribute, and nothing is bound. -/
def computingState : RunState := ⟨.initial, ⟨[[[]]]⟩, .derive "Dog.log" "log" ⟨"Dog", 1⟩, #[]⟩

/-- What a write of `x[2][1]` leaves: the arrays are made and have grown. -/
def grownState : RunState :=
  { computingState with scopes := ⟨[[[("x", .array [.null, .null, .array [.null, .integer 7]])]]]⟩ }

/-- `x[2][1]` is written where `x` is not bound, and `x[2][0]` is null before and after. To read `x[5]` makes the array
longer and nothing else, and `self.log[1]` is written beside. -/
theorem index_place_laws_computingState :
    let derive := computeDerived (.bare .off) (activate (.bare .off) 0)
    let read := fun (q : Place) (s : RunState) => (get derive q s).result
    set derive ((Place.var "x").along [2, 1]) (.integer 7) computingState = .done () grownState ∧
    read ((Place.var "x").along [2, 1]) grownState = some (.ok (.integer 7)) ∧
    read ((Place.var "x").along [2, 0]) grownState = some (.ok .null) ∧
    (∃ s', get derive ((Place.var "x").along [5]) grownState = .done .null s' ∧
      read ((Place.var "x").along [2, 1]) s' = read ((Place.var "x").along [2, 1]) grownState) ∧
    ∃ s', set derive (Place.derived.along [1]) (.integer 3) grownState = .done () s' ∧
      read (Place.derived.along [1]) s' = some (.ok (.integer 3)) := by
  intro derive read
  obtain ⟨hwrite, -, hnull, -, -⟩ := index_place_laws (.bare .off) 0 computingState
  obtain ⟨-, -, -, hread, hderived⟩ := index_place_laws (.bare .off) 0 grownState
  have hset : set derive ((Place.var "x").along [2, 1]) (.integer 7) computingState = .done () grownState := rfl
  obtain ⟨-, hlaws⟩ := hwrite "x" [2, 1] (.integer 7) (List.cons_ne_nil _ _)
  obtain ⟨hhere, -, hapart⟩ := hlaws grownState hset
  have hunwritten := hnull "x" 2 [0] ⟨_, _, _, rfl⟩ (.inl rfl) (by decide)
  have hdiverge : Diverge [2, 1] [2, 0] := ⟨1, 1, 0, rfl, rfl, by decide⟩
  refine ⟨hset, hhere, (hapart [2, 0] hdiverge).trans hunwritten, ⟨_, rfl, ?_⟩, _, rfl, ?_⟩
  · exact (hread ((Place.var "x").along [5])).2 rfl _ rfl
  · exact (hderived _ [1] (.integer 3) _ rfl rfl).1

/-! ## An attribute that counts how often it is read -/

/-- `self.n = self.n + 1; self.log[0] = self.n;` -/
def countingBody : Body :=
  ⟨.nowhere, .mk .nowhere [
    .assign .nowhere (.field .nowhere (.self .nowhere) "n")
      (.binary .nowhere (.field .nowhere (.self .nowhere) "n") .add (.integer .nowhere 1)),
    .assign .nowhere (.index .nowhere (.field .nowhere (.self .nowhere) "log") (.integer .nowhere 0))
      (.field .nowhere (.self .nowhere) "n")]⟩

/-- A dog whose `log` is computed by that body, and whose `n` is this number. -/
def countingDog (n : Int64) : RunState :=
  ⟨{ Population.initial with
      classes := [("Dog", ⟨[("n", .integer)], [("log", .written "Dog.log" countingBody)], [], []⟩)],
      instances := [⟨"Dog", 1, [("n", .integer n)]⟩],
      nextId := 2 },
    ⟨[[[]]]⟩, .start "f" none [], #[]⟩

/-- To read an index of a computed attribute can change what is read there, since its body can change the population. -/
theorem reading_log_counts :
    let derive := computeDerived (.bare .off) (activate (.bare .off) 5)
    let place := Place.index (.field ⟨"Dog", 1⟩ "log") 0
    get derive place (countingDog 0) = .done (.integer 1) (countingDog 1) ∧
      (get derive place (countingDog 0)).result ≠ (get derive place (countingDog 1)).result := by
  intro derive place
  have hfirst : get derive place (countingDog 0) = .done (.integer 1) (countingDog 1) := rfl
  have hsecond : get derive place (countingDog 1) = .done (.integer 2) (countingDog 2) := rfl
  refine ⟨hfirst, ?_⟩
  rw [hfirst, hsecond]
  simp [Outcome.result]

end Run

end ObjectAction
