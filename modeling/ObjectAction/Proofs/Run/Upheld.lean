/-
Every run upholds every law, if the body that it starts with is known to the law. Each layer of the evaluator upholds
a law if the one with one unit of fuel less does, over all nodes of the running body; a call changes the body, and
the called one is known because the population stores it.

Main statement: `upholds_run`.
-/
import ObjectAction.Proofs.Run.Law

namespace ObjectAction

theorem Body.Contains.subexpression {b : Body} {e e' : Expression} (h : b.Contains (.expression e))
    (he : e' ∈ e.expressions) : b.Contains (.expression e') :=
  h.part (List.mem_map_of_mem he)

theorem Body.Contains.expression {b : Body} {st : Statement} {e : Expression} (h : b.Contains (.statement st))
    (he : e ∈ st.expressions) : b.Contains (.expression e) :=
  h.part (List.mem_append_left _ (List.mem_map_of_mem he))

theorem Body.Contains.inBlock {b : Body} {st st' : Statement} {block : Block} (h : b.Contains (.statement st))
    (hblock : block ∈ st.blocks) (hst : st' ∈ block.statements) : b.Contains (.statement st') :=
  h.part (List.mem_append_right _ (List.mem_map_of_mem (List.mem_flatMap.mpr ⟨block, hblock, hst⟩)))

namespace Run

variable {L : Law} {label : String}

/-! ## Arrays and places -/

/-- The body of an action is known. -/
def Law.Knows (L : Law) : Action → Prop
  | .written label body => L.known ⟨label, body⟩
  | .log _ | .native _ => True

theorem Law.knows {p : Population} (hp : L.population p) {a : Action} (h : p.Stores a) : L.Knows a := by
  cases a with
  | written label body => exact L.action p label body hp h
  | log | native => trivial

/-- What there is of an attribute satisfies the law: the value that is stored, or the body that computes it. -/
def Law.Readable (L : Law) : Attribute → Prop
  | .stored v => L.value v
  | .derived a => L.Knows a

/-- Values inside a place satisfy the law. -/
def Law.Placed (L : Law) : Place → Prop
  | .value v => L.value v
  | .index base _ => L.Placed base
  | .var _ | .field _ _ | .derived => True

theorem value_of_elements {v : Value} {items : List Value} (hv : L.value v) (h : elements v = .ok items) :
    L.value (.array items) := by
  unfold elements at h
  split at h
  · cases h
    exact L.empty
  · cases h
    exact hv
  · cases h

theorem value_of_store {items items' : List Value} {position : Nat} {v : Value} (hitems : L.value (.array items))
    (hv : L.value v) (h : store items position v = .ok items') : L.value (.array items') := by
  unfold store at h
  cases hgrow : growTo items position with
  | error f =>
    rw [hgrow] at h
    cases h
  | ok grown =>
    rw [hgrow] at h
    cases h
    exact L.put grown position v (L.grow items grown position hitems hgrow) hv

theorem value_of_getD {items : List Value} (h : L.value (.array items)) (position : Nat) :
    L.value (items.getD position .null) := by
  rw [List.getD_eq_getElem?_getD]
  cases hitem : items[position]? with
  | none => exact L.plain _ rfl
  | some v => exact L.element items h v (List.mem_of_getElem? hitem)

/-- Writing an array through a slot. -/
theorem stays_write (x : Slot) {items : List Value} (h : L.value (.array items)) :
    L.Stays label (fun _ => True) (Run.modify fun s => { s with scopes := s.scopes.write x (.array items) }) :=
  fun _ hs => ⟨{ hs with scopes := hs.scopes.write h x }, trivial, .scopes _⟩

theorem upholds_arraySlot (name : String) :
    L.Upholds label (fun slot => L.value (.array slot.2)) (Record.arraySlot name) := by
  have hslot : L.Stays label (fun _ => True) (changeScopes (·.slot name (.array []))) :=
    stays_changeScopes fun t x t' ht h => ⟨ht.slot L.empty h, trivial⟩
  refine .bind (upholds_step hslot) fun x _ => ?_
  refine .bind (upholds_read (reads_look fun s hs => hs.scopes.read (L.plain _ rfl) x)) fun v hv => ?_
  refine .bind (upholds_read (reads_ofExcept fun items => value_of_elements hv)) fun items hitems => ?_
  exact .bind (upholds_step (stays_write x hitems)) fun _ _ => upholds_done hitems

section

variable {derive : Action → InstanceRef → String → Run Value} {rd : ∀ a r name, Record (derive a r name)}
  (hd : ∀ a r name, L.Knows a → L.Upholds label L.value (rd a r name))

theorem upholds_element {base : Run Value} {rb : Record base} (hb : L.Upholds label L.value rb) (position : Nat) :
    L.Upholds label L.value (rb.element position) := by
  refine .bind hb fun v hv => ?_
  refine .bind (upholds_read (reads_ofExcept fun items => value_of_elements hv)) fun items hitems => ?_
  exact upholds_done (value_of_getD hitems position)

include hd

theorem upholds_get (p : Place) (hp : L.Placed p) : L.Upholds label L.value (Record.get rd p) := by
  induction p with
  | value v => exact upholds_done hp
  | var name => exact upholds_read (reads_readVariable name)
  | field r name =>
    have hread : L.Reads label L.Readable (ask (·.readAttribute r name)) := by
      refine reads_ask fun p content hp h => ?_
      cases content with
      | stored v => exact L.stored p r name v hp h
      | derived a => exact L.knows hp (Population.stores_of_readAttribute h)
    refine .bind (upholds_read hread) fun content hcontent => ?_
    cases content with
    | stored v => exact upholds_done hcontent
    | derived a => exact hd a r name hcontent
  | index base position ih =>
    cases base with
    | var name =>
      -- reading behind the end of a variable grows what it holds
      refine .bind (upholds_arraySlot name) fun slot hitems => ?_
      refine .bind (upholds_read (reads_ofExcept fun grown => L.grow _ grown position hitems)) fun grown hgrown => ?_
      exact .bind (upholds_step (stays_write _ hgrown)) fun _ _ => upholds_done (value_of_getD hgrown position)
    | value | field | index | derived => exact upholds_element (ih hp) position
  | derived =>
    refine upholds_read (reads_look fun s hs => ?_)
    cases hcell : s.activation.derived with
    | none => exact L.plain _ rfl
    | some cell => exact hs.derived cell hcell

theorem upholds_update {base : Place} (hbase : L.Placed base) {write : Value → Run Unit} {rw : ∀ v, Record (write v)}
    (hw : ∀ v, L.value v → L.Upholds label (fun _ => True) (rw v)) (position : Nat) {v : Value} (hv : L.value v) :
    L.Upholds label (fun _ => True) ((Record.get rd base).update rw position v) := by
  refine .bind (upholds_get hd base hbase) fun w hw' => ?_
  refine .bind (upholds_read (reads_ofExcept fun items => value_of_elements hw')) fun items hitems => ?_
  refine .bind (upholds_read (reads_ofExcept fun items' => value_of_store hitems hv)) fun items' hitems' => ?_
  exact hw _ hitems'

theorem upholds_set (p : Place) (hp : L.Placed p) {v : Value} (hv : L.value v) :
    L.Upholds label (fun _ => True) (Record.set rd p v) := by
  induction p generalizing v with
  | value w => exact upholds_read (reads_fail _)
  | var name => exact upholds_step (stays_install name hv)
  | field r name => exact upholds_step (stays_change (.writeAttribute r name v) fun _ => rfl)
  | index base position ih =>
    -- what is written to an index is written back to all that is around it, so `ih` is for every value
    have hbase : L.Placed base := hp
    cases base with
    | var name =>
      refine .bind (upholds_arraySlot name) fun slot hitems => ?_
      refine .bind (upholds_read (reads_ofExcept fun items => value_of_store hitems hv)) fun items hitems' => ?_
      exact upholds_step (stays_write _ hitems')
    | value | field | index | derived => exact upholds_update hd hbase (fun v hv => ih hbase hv) position hv
  | derived =>
    refine upholds_step fun s hs => ⟨⟨⟨hs.population, hs.scopes, hs.arguments, ?_⟩, hs.running⟩, trivial, .activation _⟩
    intro cell hcell
    obtain ⟨cell', -, rfl⟩ := Option.map_eq_some_iff.mp hcell
    exact hv

end

/-! ## Expressions -/

theorem stays_performLog (verbosity : Verbosity) (op : LogOperation) (arguments : Arguments) :
    L.Stays label L.value (performLog verbosity op arguments) := by
  intro s hs
  have hperform : L.Reads label (fun _ => True) (ask fun _ => op.perform verbosity arguments) :=
    reads_ask fun _ _ _ _ => trivial
  refine Law.Ends.bind (hperform s hs) (.refl s) fun line _ => ?_
  cases line with
  | none => exact ⟨hs, L.plain _ rfl, .refl s⟩
  | some text =>
    have hlogged : L.Holds { s with journal := s.journal.push (.log op.severity text) } :=
      ⟨hs.population, hs.scopes, hs.arguments, hs.derived⟩
    exact ⟨⟨hlogged, hs.running⟩, L.plain _ rfl, .log op.severity text⟩

section

variable {activate : Activation → Body → Run Value} {ra : ∀ a b, Record (activate a b)}
  (hA : ∀ (a : Activation) b, L.known ⟨a.label, b⟩ → (∀ x ∈ a.arguments, L.value x.2) →
    (∀ cell ∈ a.derived, L.value cell.result) → L.Upholds label L.value (ra a b))
  {host : Host} (hhost : host.Respects L.population L.value)

include hA hhost

theorem upholds_callAction (action : Action) (haction : L.Knows action) (receiver : Option InstanceRef)
    {arguments : Arguments} (harguments : ∀ x ∈ arguments, L.value x.2) :
    L.Upholds label L.value (Record.callAction host ra action receiver arguments) := by
  cases action with
  | written l body => exact hA _ body haction harguments nofun
  | log op => exact upholds_step (stays_performLog _ op arguments)
  | native name => exact upholds_step (stays_performNative hhost name receiver harguments)

theorem upholds_computeDerived (action : Action) (r : InstanceRef) (name : String) (haction : L.Knows action) :
    L.Upholds label L.value (Record.computeDerived host ra action r name) := by
  cases action with
  | written l body =>
    refine hA _ body haction nofun fun cell hcell => ?_
    cases hcell
    exact L.plain _ rfl
  | log op => exact upholds_step (stays_performLog _ op [])
  | native name => exact upholds_step (stays_performNative hhost name (some r) nofun)

end

/-- If it is a value, it is a plain one. -/
def Plain (r : Except Fault Value) : Prop := ∀ v, r = .ok v → v.isPlain = true

theorem plain_ok {v : Value} (h : v.isPlain = true) : Plain (.ok v) := by
  rintro w ⟨⟩
  exact h

theorem plain_error (f : Fault) : Plain (.error f) := nofun

theorem plain_checked (op : BinaryOperator) (n : Int) : Plain (checked op n) := by
  unfold checked
  split
  · exact plain_ok rfl
  · exact plain_error _

theorem plain_integerDivision (op : BinaryOperator) (a b : Int) : Plain (integerDivision op a b) := by
  unfold integerDivision
  split
  · exact plain_error _
  · intro v hv
    obtain ⟨quotient, hquotient, hv⟩ := Population.ok_of_bind hv
    split at hv
    · exact plain_checked op _ v hv
    · cases hv
      exact plain_checked op _ v hquotient

theorem plain_realDivision (op : BinaryOperator) (x y : Float) : Plain (realDivision op x y) := by
  unfold realDivision
  split
  · exact plain_error _
  · exact plain_ok rfl

theorem plain_arithmetic (op : BinaryOperator) {onIntegers : Int → Int → Except Fault Value}
    {onReals : Float → Float → Except Fault Value} (hi : ∀ a b, Plain (onIntegers a b))
    (hr : ∀ x y, Plain (onReals x y)) (left right : Value) : Plain (arithmetic op onIntegers onReals left right) := by
  unfold arithmetic
  split
  · exact hi _ _
  · split
    · exact hr _ _
    · exact plain_error _

theorem plain_compare (op : BinaryOperator) (left right : Value) : Plain (compare op left right) := by
  unfold compare
  split
  · exact plain_ok rfl
  · exact plain_ok rfl
  · split
    · exact plain_ok rfl
    · exact plain_error _

theorem plain_binary (op : BinaryOperator) (left right : Value) : Plain (binary op left right) := by
  have hchecked : ∀ g : Int → Int → Int, ∀ a b, Plain (checked op (g a b)) := fun g a b => plain_checked op (g a b)
  cases op with
  | and | or | equal | notEqual => exact plain_ok rfl
  | less | lessEq | greater | greaterEq => exact plain_compare _ left right
  | add =>
    show Plain (add left right)
    unfold add
    split
    · exact plain_ok rfl
    · exact plain_arithmetic _ (hchecked _) (fun _ _ => plain_ok rfl) left right
  | sub | mul => exact plain_arithmetic _ (hchecked _) (fun _ _ => plain_ok rfl) left right
  | div | rem => exact plain_arithmetic _ (plain_integerDivision _) (plain_realDivision _) left right

theorem plain_negate (v : Value) : Plain (negate v) := by
  unfold negate
  split
  · split
    · exact plain_ok rfl
    · exact plain_error _
  · exact plain_ok rfl
  · exact plain_error _

theorem plain_affirm (v : Value) : Plain (affirm v) := by
  unfold affirm
  split
  · exact plain_ok rfl
  · exact plain_ok rfl
  · exact plain_error _

theorem Plain.reads {r : Except Fault Value} (h : Plain r) : L.Reads label L.value (ofExcept r) :=
  reads_ofExcept fun v hv => L.plain v (h v hv)

theorem reads_loopPosition (operator : String) (test : LoopCursor → Bool) (e : Expression) :
    L.Reads label L.value (loopPosition operator test e) := by
  unfold loopPosition
  split
  · refine .bind (Q := fun _ => True) (reads_look fun _ _ => trivial) fun cursor _ => ?_
    cases cursor with
    | some c => exact reads_pure (L.plain _ rfl)
    | none => exact reads_fail _
  · exact reads_fail _

theorem reads_expectIndex (v : Value) : L.Reads label (fun _ => True) (expectIndex v) := by
  unfold expectIndex
  split
  · split
    · exact reads_fail _
    · exact reads_pure trivial
  · exact reads_fail _

theorem reads_isComputed (target : Expression) (name : String) :
    L.Reads label (fun _ => True) (isComputed target name) := by
  unfold isComputed
  split
  · exact reads_look fun _ _ => trivial
  · exact reads_pure trivial

section

variable {b : Body} {eval : Expression → Run Value} {re : ∀ e, Record (eval e)}
  (hE : ∀ e, b.Contains (.expression e) → L.Upholds label L.value (re e))

include hE

theorem upholds_evalUnary (op : UnaryOperator) (operand : Expression) (h : b.Contains (.expression operand)) :
    L.Upholds label L.value (Record.evalUnary re op operand) := by
  have hplain : ∀ g : Value → Value, (∀ v, (g v).isPlain = true) →
      L.Upholds label L.value ((re operand).bind fun v => Record.done (g v)) :=
    fun g hg => .bind (hE operand h) fun v _ => upholds_done (L.plain _ (hg v))
  cases op with
  | first => exact upholds_read (reads_loopPosition "first" _ operand)
  | last => exact upholds_read (reads_loopPosition "last" _ operand)
  | minus => exact .bind (hE operand h) fun v _ => upholds_read (plain_negate v).reads
  | plus => exact .bind (hE operand h) fun v _ => upholds_read (plain_affirm v).reads
  | not | empty | notEmpty | cardinality => exact hplain _ fun _ => rfl

theorem upholds_evalRef (e : Expression) (h : b.Contains (.expression e)) :
    L.Upholds label (fun _ => True) (Record.evalRef re e) :=
  .bind (hE e h) fun v _ => upholds_read (reads_expectRef v)

theorem upholds_evalArguments (done : Arguments) (arguments : List Argument) (hdone : ∀ x ∈ done, L.value x.2)
    (h : ∀ e ∈ arguments.map Argument.value, b.Contains (.expression e)) :
    L.Upholds label (fun evaluated => ∀ x ∈ evaluated, L.value x.2) (Record.evalArguments re done arguments) := by
  induction arguments generalizing done with
  | nil => exact upholds_done hdone
  | cons argument rest ih =>
    obtain ⟨extent, name, value⟩ := argument
    obtain ⟨hvalue, hrest⟩ := List.forall_mem_cons.mp h
    exact .bind (hE value hvalue) fun v hv => ih _ (Scopes.all_put hdone hv) hrest

theorem upholds_place : ∀ e, b.Contains (.expression e) → L.Upholds label L.Placed (Record.place re e)
  | .var _ _, _ => upholds_done trivial
  | .field _ target name, h => by
    have htarget : b.Contains (.expression target) := h.subexpression (by simp [Expression.expressions])
    refine .bind (upholds_read (reads_isComputed target name)) fun computed _ => ?_
    refine .either (fun _ => upholds_done trivial) fun _ => ?_
    exact .bind (upholds_evalRef hE target htarget) fun r _ => upholds_done trivial
  | .index _ target position, h => by
    have htarget : b.Contains (.expression target) := h.subexpression (by simp [Expression.expressions])
    have hposition : b.Contains (.expression position) := h.subexpression (by simp [Expression.expressions])
    refine .bind (upholds_place target htarget) fun base hbase => .bind (hE position hposition) fun v _ => ?_
    exact .bind (upholds_read (reads_expectIndex v)) fun i _ => upholds_done hbase
  | .integer _ _, h | .real _ _, h | .string _ _, h | .boolean _ _, h | .enumerator _ _ _, h | .self _, h
  | .selected _, h | .parameter _ _ _, h | .unary _ _ _, h | .binary _ _ _ _, h | .invoke _ _ _ _, h =>
    .bind (hE _ h) fun _ hv => upholds_done hv

theorem upholds_resolve (callee : Callee) (name : String)
    (h : ∀ e ∈ callee.expressions, b.Contains (.expression e)) :
    L.Upholds label (fun found => L.Knows found.1) (Record.resolve re callee name) := by
  have hfind : ∀ find : Population → Except PopulationError Action, (∀ p a, find p = .ok a → p.Stores a) →
      ∀ receiver : Option InstanceRef, L.Upholds label (fun found => L.Knows found.1)
        ((Record.step (ask find)).bind fun action => Record.done (action, receiver)) := by
    intro find hstores receiver
    refine .bind (upholds_read (reads_ask fun p a hp ha => ?_)) fun action haction => upholds_done haction
    exact L.knows hp (hstores p a ha)
  cases callee with
  | function => exact hfind _ (fun p a ha => Population.stores_of_findFunction ha) none
  | unmarked owner =>
    refine hfind _ (fun p a ha => ?_) none
    split at ha
    · exact Population.stores_of_findClassOperation ha
    · exact Population.stores_of_findBridge ha
  | bridge entity => exact hfind _ (fun p a ha => Population.stores_of_findBridge ha) none
  | ofClass className => exact hfind _ (fun p a ha => Population.stores_of_findClassOperation ha) none
  | port port => exact hfind _ (fun p a ha => Population.stores_of_findPortOperation ha) none
  | receiver target =>
    have htarget := h target (by simp [Callee.expressions])
    refine .bind (upholds_evalRef hE target htarget) fun r _ => ?_
    exact hfind _ (fun p a ha => Population.stores_of_findInstanceOperation ha) (some r)

end

section

variable {origin : Origin} {eval : Expression → Run Value} {activate : Activation → Body → Run Value}
  {re : ∀ e, Record (eval e)} {ra : ∀ a b, Record (activate a b)}
  (hE : ∀ e, origin.body.Contains (.expression e) → L.Upholds origin.label L.value (re e))
  (hA : ∀ (a : Activation) b, L.known ⟨a.label, b⟩ → (∀ x ∈ a.arguments, L.value x.2) →
    (∀ cell ∈ a.derived, L.value cell.result) → L.Upholds origin.label L.value (ra a b))
  {host : Host} (hhost : host.Respects L.population L.value)

include hE hA hhost

theorem upholds_invoke (callee : Callee) (name : String) (arguments : List Argument)
    (h : ∀ e ∈ callee.expressions ++ arguments.map Argument.value, origin.body.Contains (.expression e)) :
    L.Upholds origin.label L.value (Record.invoke host re ra callee name arguments) := by
  obtain ⟨hcallee, harguments⟩ := List.forall_mem_append.mp h
  refine .bind (upholds_resolve hE callee name hcallee) fun ⟨action, receiver⟩ haction => ?_
  refine .bind (upholds_evalArguments hE [] arguments nofun harguments) fun evaluated hevaluated => ?_
  exact upholds_callAction hA hhost action haction receiver hevaluated

theorem upholds_evalForm (e : Expression) (h : origin.body.Contains (.expression e)) :
    L.Upholds origin.label L.value (Record.evalForm host re ra e) := by
  have hplace : L.Upholds origin.label L.value
      ((Record.place re e).bind fun p => Record.get (Record.computeDerived host ra) p) :=
    .bind (upholds_place hE e h) fun p hp => upholds_get (upholds_computeDerived hA hhost) p hp
  cases e with
  | integer | real | string | boolean => exact upholds_done (L.plain _ rfl)
  | enumerator extent enumeration name =>
    have hfind : L.Reads origin.label L.value (ask (·.findEnumerator enumeration name)) := by
      refine reads_ask fun p v _ hv => ?_
      unfold Population.findEnumerator at hv
      split at hv
      · cases hv
        exact L.plain _ rfl
      · cases hv
    exact upholds_read hfind
  | self => exact .bind (upholds_read reads_receiver) fun r _ => upholds_done (L.plain _ rfl)
  | selected => exact .bind (upholds_read reads_selected) fun r _ => upholds_done (L.plain _ rfl)
  | parameter extent name =>
    have hlook : L.Reads origin.label (fun found => ∀ v ∈ found, L.value v)
        (look fun s => Table.value? s.activation.arguments name) :=
      reads_look fun s hs v hv => hs.arguments _ (Table.mem_of_value? hv)
    unfold Record.evalForm
    refine .bind (upholds_read hlook) fun argument hargument => ?_
    cases argument with
    | some v => exact upholds_done (hargument v rfl)
    | none => exact upholds_read (reads_fail _)
  | var | field | index => exact hplace
  | unary extent op operand =>
    exact upholds_evalUnary hE op operand (h.subexpression (by simp [Expression.expressions]))
  | binary extent left op right =>
    have hleft : origin.body.Contains (.expression left) := h.subexpression (by simp [Expression.expressions])
    have hright : origin.body.Contains (.expression right) := h.subexpression (by simp [Expression.expressions])
    refine .bind (hE left hleft) fun l _ => .bind (hE right hright) fun r _ => ?_
    exact upholds_read (plain_binary op l r).reads
  | invoke extent callee name arguments =>
    exact upholds_invoke hE hA hhost callee name arguments fun e he => h.subexpression he

theorem upholds_evalStep (hknown : L.known origin) (e : Expression) (h : origin.body.Contains (.expression e))
    (hfails : ∀ s f s', Run.evalForm host eval activate e s = .failed f s' → isPopulationFault f = true →
      L.fails (.expression e) f s s') :
    L.Upholds origin.label L.value (Record.evalStep host re ra origin e) :=
  (upholds_evalForm hE hA hhost e h).reporting _ hknown h hfails (L.plain _ rfl)

end

/-! ## Statements -/

section

variable {b : Body} {exec : Statement → Run Signal} {rx : ∀ st, Record (exec st)}
  (hX : ∀ st, b.Contains (.statement st) → L.Upholds label L.Signals (rx st))

include hX

theorem upholds_execAll (sts : List Statement) (h : ∀ st ∈ sts, b.Contains (.statement st)) :
    L.Upholds label L.Signals (Record.execAll rx sts) := by
  induction sts with
  | nil => exact upholds_done trivial
  | cons st rest ih =>
    obtain ⟨hst, hrest⟩ := List.forall_mem_cons.mp h
    refine .bind (hX st hst) fun signal hsignal => ?_
    cases signal with
    | normal => exact ih hrest
    | returned | broke | continued | stopped => exact upholds_done hsignal

theorem upholds_execBlock (block : Block) (h : ∀ st ∈ block.statements, b.Contains (.statement st)) :
    L.Upholds label L.Signals (Record.execBlock rx block) :=
  (upholds_execAll hX block.statements h).inBlock

/-- The value of a body is what it returns, or what was assigned to the attribute that it computes. -/
theorem upholds_execBody (hb : ∀ st ∈ b.block.statements, b.Contains (.statement st)) :
    L.Upholds label L.value (Record.execBody rx b) := by
  have hderived : L.Reads label (fun derived => ∀ cell ∈ derived, L.value cell.result)
      (look (·.activation.derived)) := reads_look fun s hs => hs.derived
  refine .valued (.bind (upholds_execBlock hX b.block hb).inScope fun signal hsignal => ?_)
  refine .bind (upholds_read hderived) fun derived hderived => upholds_read ?_
  -- what was assigned to the attribute counts if null or nothing was returned
  split
  · rename_i cell _
    exact reads_pure (hderived cell rfl)
  · refine reads_pure ?_
    cases signal with
    | returned v => exact hsignal
    | normal | broke | continued | stopped => exact L.plain _ rfl

end

theorem upholds_afterPass {signal : Signal} (hsignal : L.Signals signal) {rest : Run Signal} {rr : Record rest}
    (hr : L.Upholds label L.Signals rr) : L.Upholds label L.Signals (rr.afterPass signal) := by
  cases signal with
  | normal | continued => exact hr
  | broke => exact upholds_done trivial
  | returned | stopped => exact upholds_done hsignal

section

variable {body : Run Signal} {rb : Record body} (hb : L.Upholds label L.Signals rb)

include hb

theorem upholds_passes (item : String) (refs : List InstanceRef) (index : Nat) :
    L.Upholds label L.Signals (rb.passes item index refs) := by
  induction refs generalizing index with
  | nil => exact upholds_done trivial
  | cons r rest ih =>
    refine .turning (.bind (upholds_step (stays_setPass index)) fun _ _ => ?_)
    refine .bind (upholds_step (stays_install item (L.plain _ rfl))) fun _ _ => ?_
    exact .bind hb fun signal hsignal => upholds_afterPass hsignal (ih (index + 1))

theorem upholds_forEach (item set : String) : L.Upholds label L.Signals (rb.forEach item set) := by
  refine .bind (upholds_read (reads_readVariable set)) fun v hv => ?_
  refine .bind (upholds_read (reads_expectInstances _ hv)) fun refs _ => ?_
  exact (upholds_passes hb item refs 0).withLoop _

theorem upholds_whileTrue {condition : Run Value} {rc : Record condition} (hc : L.Upholds label L.value rc)
    (fuel : Nat) : L.Upholds label L.Signals (rb.whileTrue rc fuel) := by
  induction fuel with
  | zero => exact upholds_read reads_exhausted
  | succ fuel ih =>
    refine .turning (.bind hc fun v _ => .either (fun _ => ?_) fun _ => upholds_done trivial)
    exact .bind hb fun signal hsignal => upholds_afterPass hsignal ih

end

/-! ## Selections -/

section

variable {b : Body} {eval : Expression → Run Value} {re : ∀ e, Record (eval e)}
  (hE : ∀ e, b.Contains (.expression e) → L.Upholds label L.value (re e))

include hE

theorem upholds_satisfies (condition : Expression) (h : b.Contains (.expression condition)) (r : InstanceRef) :
    L.Upholds label (fun _ => True) (Record.satisfies re condition r) :=
  .bind ((hE condition h).withCandidate r).inBlock fun _ _ => upholds_done trivial

/-- What is kept are some of the candidates, in their order. -/
theorem upholds_filter (condition : Expression) (h : b.Contains (.expression condition)) (single : Bool)
    (refs : List InstanceRef) :
    L.Upholds label (fun kept => kept.Sublist refs) (Record.filter re condition single refs) := by
  induction refs with
  | nil => exact upholds_done .slnil
  | cons r rest ih =>
    refine .bind (upholds_satisfies hE condition h r) fun holds _ => ?_
    refine .either (fun _ => .either (fun _ => ?_) fun _ => ?_) fun _ => ih.mono fun kept hkept => hkept.cons r
    · exact upholds_done ((List.nil_sublist rest).cons_cons r)
    · exact .bind ih fun kept hkept => upholds_done (hkept.cons_cons r)

theorem upholds_keep (cardinality : Cardinality) (condition : Option Expression)
    (h : ∀ e ∈ condition.toList, b.Contains (.expression e)) (candidates : List InstanceRef) :
    L.Upholds label (fun kept => kept.Sublist candidates) (Record.keep re cardinality condition candidates) := by
  cases condition with
  | none =>
    refine upholds_done ?_
    split
    · exact List.take_sublist 1 candidates
    · exact List.Sublist.refl candidates
  | some c => exact upholds_filter hE c (h c (by simp)) _ candidates

theorem upholds_recipientOf (target : EventTarget) (h : ∀ e ∈ target.expressions, b.Contains (.expression e)) :
    L.Upholds label (fun _ => True) (Record.recipientOf re target) := by
  cases target with
  | ofClass | creator => exact upholds_done trivial
  | receiver e =>
    have he := h e (by simp [EventTarget.expressions])
    exact .bind (upholds_evalRef hE e he) fun r _ => upholds_done trivial

theorem upholds_buildEvent (spec : EventSpec) (target : EventTarget)
    (h : ∀ e ∈ spec.arguments.map Argument.value ++ target.expressions, b.Contains (.expression e)) :
    L.Upholds label (fun e => ∀ x ∈ e.arguments, L.value x.2) (Record.buildEvent re spec target) := by
  obtain ⟨harguments, htarget⟩ := List.forall_mem_append.mp h
  refine .bind (upholds_evalArguments hE [] spec.arguments nofun harguments) fun arguments hevaluated => ?_
  exact .bind (upholds_recipientOf hE target htarget) fun recipient _ => upholds_done hevaluated

end

theorem reads_candidatesOf (cardinality : Cardinality) (condition : Option Expression) (className : String) :
    L.Reads label (fun refs => L.value (.set refs)) (candidatesOf cardinality condition className) := by
  unfold candidatesOf
  split
  · exact reads_ask fun p refs hp h => L.instances p className refs hp h
  · refine .bind (Q := fun _ => True) (reads_ask fun _ _ _ _ => trivial) fun r _ => reads_pure (L.nodup _ ?_)
    cases r with
    | none => exact List.nodup_nil
    | some r => exact List.nodup_singleton r

theorem reads_startInstances (start : NavigationStart) :
    L.Reads label (fun refs => L.value (.set refs)) (startInstances start) := by
  cases start with
  | self => exact .bind reads_receiver fun r _ => reads_pure (L.nodup _ (List.nodup_singleton r))
  | selected => exact .bind reads_selected fun r _ => reads_pure (L.nodup _ (List.nodup_singleton r))
  | var name => exact .bind (reads_readVariable name) fun v hv => reads_expectInstances _ hv

theorem reads_hop (step : NavigationStep) (refs : List InstanceRef) :
    L.Reads label (fun _ => True) (hop step refs) := by
  induction refs with
  | nil => exact reads_pure trivial
  | cons r rest ih =>
    refine .bind (Q := fun _ => True) (reads_ask fun _ _ _ _ => trivial) fun reached _ => ?_
    exact .bind ih fun others _ => reads_pure trivial

/-- Without a hop the instances are those of a value; after a hop none stands twice. -/
theorem reads_followChain (chain : List NavigationStep) (refs : List InstanceRef) (h : L.value (.set refs)) :
    L.Reads label (fun reached => L.value (.set reached)) (followChain chain refs) := by
  induction chain generalizing refs with
  | nil => exact reads_pure h
  | cons step rest ih =>
    refine .bind (reads_hop step refs) fun reached _ => ih _ ?_
    exact L.nodup _ (Population.nodup_distinct reached)

theorem stays_bindSelection (name : String) (cardinality : Cardinality) {refs : List InstanceRef}
    (h : L.value (.set refs)) : L.Stays label (fun _ => True) (bindSelection name cardinality refs) := by
  refine stays_install name ?_
  split
  · exact h
  · exact L.plain _ rfl
  · exact L.plain _ rfl

/-- Every step across a link is an operation on the population. -/
theorem upholds_acrossLink {operation : Population → InstanceRef → InstanceRef → String → Option String →
      Except PopulationError Population} {op : InstanceRef → InstanceRef → String → Option String → Operation}
    (hop : ∀ a b id phrase, (op a b id phrase).InRun L.value)
    (hafter : ∀ a b id phrase (p : Population), p.after (op a b id phrase) = p.orUnchanged (operation p a b id phrase))
    (source target : String) (relationship : Relationship) (link : Option String) :
    L.Upholds label (fun _ => True) (Record.acrossLink operation source target relationship link) := by
  have hchange : ∀ a b, L.Stays label (fun _ => True) (change (operation · a b relationship.id relationship.phrase)) :=
    fun a b => stays_change (hop a b _ _) (hafter a b _ _)
  refine .bind (upholds_read (reads_readRef source)) fun a _ => ?_
  refine .bind (upholds_read (reads_readRef target)) fun b _ => ?_
  cases link with
  | none => exact upholds_step (hchange a b)
  | some name =>
    refine .bind (upholds_read (reads_readRef name)) fun l _ => ?_
    exact .bind (upholds_step (hchange a l)) fun _ _ => upholds_step (hchange l b)

theorem Law.Upholds.normally {α : Type} {x : Run α} {Q : α → Prop} {r : Record x} (h : L.Upholds label Q r) :
    L.Upholds label L.Signals r.normally :=
  .bind h fun _ _ => upholds_done trivial

section

variable {origin : Origin} {eval : Expression → Run Value} {exec : Statement → Run Signal}
  {activate : Activation → Body → Run Value} {re : ∀ e, Record (eval e)} {rx : ∀ st, Record (exec st)}
  {ra : ∀ a b, Record (activate a b)}
  (hE : ∀ e, origin.body.Contains (.expression e) → L.Upholds origin.label L.value (re e))
  (hX : ∀ st, origin.body.Contains (.statement st) → L.Upholds origin.label L.Signals (rx st))
  (hA : ∀ (a : Activation) b, L.known ⟨a.label, b⟩ → (∀ x ∈ a.arguments, L.value x.2) →
    (∀ cell ∈ a.derived, L.value cell.result) → L.Upholds origin.label L.value (ra a b))
  {host : Host} (hhost : host.Respects L.population L.value) (fuel : Nat)

include hE hX

theorem upholds_execElifs (otherwise : Option Block) (elifs : List Elif)
    (hc : ∀ e ∈ elifs.map Elif.condition, origin.body.Contains (.expression e))
    (hb : ∀ block ∈ elifs.map Elif.block ++ otherwise.toList, ∀ st ∈ block.statements,
      origin.body.Contains (.statement st)) :
    L.Upholds origin.label L.Signals (Record.execElifs re rx otherwise elifs) := by
  induction elifs with
  | nil =>
    cases otherwise with
    | some block => exact upholds_execBlock hX block (hb block (by simp))
    | none => exact upholds_done trivial
  | cons elif rest ih =>
    obtain ⟨extent, condition, block⟩ := elif
    obtain ⟨hcondition, hconditions⟩ := List.forall_mem_cons.mp hc
    obtain ⟨hblock, hblocks⟩ := List.forall_mem_cons.mp hb
    refine .bind (hE condition hcondition) fun v _ => .either (fun _ => ?_) fun _ => ih hconditions hblocks
    exact upholds_execBlock hX block hblock

include hA hhost

theorem upholds_execForm (st : Statement) (h : origin.body.Contains (.statement st)) :
    L.Upholds origin.label L.Signals (Record.execForm host fuel re rx ra st) := by
  have hblocks : ∀ block ∈ st.blocks, ∀ st' ∈ block.statements, origin.body.Contains (.statement st') :=
    fun block hblock st' hst' => h.inBlock hblock hst'
  have hexpressions : ∀ e ∈ st.expressions, origin.body.Contains (.expression e) := fun e he => h.expression he
  cases st with
  | breakLoop | continueLoop | stop => exact upholds_done trivial
  | returnValue extent value =>
    cases value with
    | none => exact upholds_done (L.plain _ rfl)
    | some e =>
      exact .bind (hE e (hexpressions e (by simp [Statement.expressions]))) fun v hv => upholds_done hv
  | assign extent target value =>
    have htarget := hexpressions target (by simp [Statement.expressions])
    have hvalue := hexpressions value (by simp [Statement.expressions])
    refine .bind (hE value hvalue) fun v hv => .bind (upholds_place hE target htarget) fun p hp => ?_
    exact (upholds_set (upholds_computeDerived hA hhost) p hp hv).normally
  | invoke extent invocation =>
    exact (hE invocation (hexpressions invocation (by simp [Statement.expressions]))).normally
  | create extent name className =>
    have hcreate : L.Stays origin.label (fun _ => True) (perform (·.create className)) := by
      refine stays_perform fun p r q hp hq => ⟨?_, trivial⟩
      have hafter := L.after p (.create className) hp (.create className)
      rw [Population.after, hq] at hafter
      exact hafter
    refine .bind (upholds_step hcreate) fun r _ => ?_
    cases name with
    | some name => exact (upholds_step (stays_install name (L.plain _ rfl))).normally
    | none => exact upholds_done trivial
  | delete extent name =>
    refine .bind (upholds_read (reads_readRef name)) fun r _ => ?_
    exact (upholds_step (stays_change (.delete r) fun _ => rfl)).normally
  | relate extent source target relationship link =>
    exact (upholds_acrossLink .relate (fun _ _ _ _ _ => rfl) source target relationship link).normally
  | unrelate extent source target relationship link =>
    exact (upholds_acrossLink .unrelate (fun _ _ _ _ _ => rfl) source target relationship link).normally
  | selectFrom extent cardinality name className condition =>
    refine .bind (upholds_read (reads_candidatesOf cardinality condition className)) fun candidates hcandidates => ?_
    refine .bind (upholds_keep hE cardinality condition hexpressions candidates) fun kept hkept => ?_
    exact (upholds_step (stays_bindSelection name cardinality (L.sublist _ kept hcandidates hkept))).normally
  | selectRelated extent cardinality name start chain condition =>
    refine .bind (upholds_read (reads_startInstances start)) fun refs hrefs => ?_
    refine .bind (upholds_read (reads_followChain chain refs hrefs)) fun reached hreached => ?_
    refine .bind (upholds_keep hE cardinality condition hexpressions reached) fun kept hkept => ?_
    exact (upholds_step (stays_bindSelection name cardinality (L.sublist _ kept hreached hkept))).normally
  | forEach extent item set block =>
    exact upholds_forEach (upholds_execBlock hX block (hblocks block (by simp [Statement.blocks]))) item set
  | whileLoop extent condition block =>
    have hcondition := hE condition (hexpressions condition (by simp [Statement.expressions]))
    exact upholds_whileTrue (upholds_execBlock hX block (hblocks block (by simp [Statement.blocks]))) hcondition fuel
  | branch extent condition block elifs otherwise =>
    obtain ⟨hcondition, hconditions⟩ := List.forall_mem_cons.mp hexpressions
    obtain ⟨hblock, hothers⟩ := List.forall_mem_cons.mp hblocks
    refine .bind (hE condition hcondition) fun v _ => .either (fun _ => upholds_execBlock hX block hblock) fun _ => ?_
    exact upholds_execElifs hE hX otherwise elifs hconditions hothers
  | generate extent spec target =>
    refine .bind (upholds_buildEvent hE spec target hexpressions) fun e he => ?_
    exact (upholds_step (stays_change (.generate e he) fun _ => rfl)).normally
  | createEvent extent name spec target =>
    refine .bind (upholds_buildEvent hE spec target hexpressions) fun e he => ?_
    exact (upholds_step (stays_install name (L.event e he))).normally
  | generateCreated extent name =>
    -- an event that was bound before has its arguments from then
    refine .bind (upholds_read (reads_readVariable name)) fun v hv => ?_
    cases v with
    | event e => exact (upholds_step (stays_change (.generate e (L.argument e hv)) fun _ => rfl)).normally
    | null | boolean | integer | real | string | enumerator | ref | set | array | global =>
      exact Law.Upholds.normally (Q := fun _ => True) (upholds_read (reads_fail _))

theorem upholds_execStep (hknown : L.known origin) (st : Statement) (h : origin.body.Contains (.statement st))
    (hfails : ∀ s f s', Run.execForm host fuel eval exec activate st s = .failed f s' → f.isRecoverable = true →
      L.fails (.statement st) f s s') :
    L.Upholds origin.label L.Signals (Record.execStep host fuel re rx ra false origin st) := by
  refine Law.Upholds.statement ?_ st
  exact (upholds_execForm hE hX hA hhost fuel st h).reporting _ hknown h hfails trivial

end

/-! ## Runs -/

/-- The evaluation of a node begins in one state and ends in a fault in another, and it is there that this is reported:
at an expression what fails in the population, and at a statement what else can be passed over. -/
def Fails (host : Host) (f : Fault) (s s' : RunState) : Node → Prop
  | .expression e => isPopulationFault f = true ∧
    ∃ fuel, evalForm host (eval host fuel) (activate host fuel) e s = .failed f s'
  | .statement st => f.isRecoverable = true ∧
    ∃ fuel, execForm host fuel (eval host fuel) (exec host fuel) (activate host fuel) st s =
      .failed f s'

/-- What runs with that much fuel do under a law. -/
structure Law.Governs (L : Law) (host : Host) (fuel : Nat) : Prop where
  eval : ∀ origin e, L.known origin → origin.body.Contains (.expression e) →
    L.Upholds origin.label L.value (recordEval host fuel origin e)
  exec : ∀ origin st, L.known origin → origin.body.Contains (.statement st) →
    L.Upholds origin.label L.Signals (recordExec host fuel origin st)
  activate : ∀ (a : Activation) b label, L.known ⟨a.label, b⟩ → (∀ x ∈ a.arguments, L.value x.2) →
    (∀ cell ∈ a.derived, L.value cell.result) → L.Upholds label L.value (recordActivate host fuel a b)

theorem upholds_run {host : Host} (hhost : host.Respects L.population L.value)
    (hfails : ∀ node f s s', Fails host f s s' node → L.fails node f s s')
    (fuel : Nat) : L.Governs host fuel := by
  induction fuel with
  | zero => exact ⟨fun _ _ _ _ => upholds_read reads_exhausted, fun _ _ _ _ => upholds_read reads_exhausted,
      fun _ _ _ _ _ _ => upholds_read reads_exhausted⟩
  | succ fuel ih =>
    have hE : ∀ origin, L.known origin → ∀ e, origin.body.Contains (.expression e) →
        L.Upholds origin.label L.value (recordEval host fuel origin e) :=
      fun origin hknown e => ih.eval origin e hknown
    have hX : ∀ origin, L.known origin → ∀ st, origin.body.Contains (.statement st) →
        L.Upholds origin.label L.Signals (recordExec host fuel origin st) :=
      fun origin hknown st => ih.exec origin st hknown
    have hA := fun label a b => ih.activate a b label
    refine ⟨fun origin e hknown he => ?_, fun origin st hknown hst => ?_,
      fun a b label hknown harguments hderived => ?_⟩
    · exact upholds_evalStep (hE origin hknown) (hA origin.label) hhost hknown e he
        fun s f s' h hf => hfails _ f s s' ⟨hf, fuel, h⟩
    · exact upholds_execStep (hE origin hknown) (hX origin hknown) (hA origin.label) hhost fuel hknown st hst
        fun s f s' h hf => hfails _ f s s' ⟨hf, fuel, h⟩
    · -- the body that is called is the origin of all that happens in it
      exact (upholds_execBody (hX ⟨a.label, b⟩ hknown) fun st hst => .statement hst).within harguments hderived

end Run

end ObjectAction
