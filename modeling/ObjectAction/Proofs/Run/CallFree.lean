/-
Expressions without calls. To evaluate one takes no more fuel than the expression is high, and changes neither the
population nor the activation, whether a value comes out or a fault. The variables change too: an index of a variable
pads it, also where the index is out of range, in an index itself, or in what fails later.

Main statement: `eval_only_pads`, by a walk through all forms of expressions and places.
-/
import ObjectAction.Proofs.Run.Evaluation
import ObjectAction.Proofs.Run.Indexing
import ObjectAction.Proofs.Scope.Padding

namespace ObjectAction

/-! ## Expressions, populations and states -/

/-- Whether no part of the expression is an invocation. -/
def Expression.isCallFree : Expression → Bool
  | field _ target _ => target.isCallFree
  | index _ target position => target.isCallFree && position.isCallFree
  | unary _ _ operand => operand.isCallFree
  | binary _ left _ right => left.isCallFree && right.isCallFree
  | invoke _ _ _ _ => false
  | _ => true

/-- How deep the parts of an expression lie in each other; parts of an invocation are not counted. -/
def Expression.height : Expression → Nat
  | field _ target _ => target.height + 1
  | index _ target position => max target.height position.height + 1
  | unary _ _ operand => operand.height + 1
  | binary _ left _ right => max left.height right.height + 1
  | _ => 1

theorem Expression.height_pos (e : Expression) : 0 < e.height := by
  unfold height
  split <;> omega

/-- No class has a derived attribute. -/
def Population.Underived (p : Population) : Prop :=
  ∀ className c, Table.value? p.classes className = some c → c.derived = []

/-- An attribute of such a population is stored. -/
theorem Population.Underived.stored {p : Population} (hp : p.Underived) {r : InstanceRef} {name : String}
    {x : Attribute} (h : p.readAttribute r name = .ok x) : ∃ v, x = .stored v := by
  unfold readAttribute at h
  obtain ⟨i, -, h⟩ := Population.ok_of_bind h
  obtain ⟨c, hc, h⟩ := Population.ok_of_bind h
  rw [hp _ _ (value?_of_classDef hc)] at h
  split at h
  · rename_i hderived
    cases hderived
  · cases h
    exact ⟨_, rfl⟩
  · cases h

/-- Population and activation are the same, and the variables are padded. -/
structure RunState.Padded (s s' : RunState) : Prop where
  population : s'.population = s.population
  activation : s'.activation = s.activation
  scopes : s.scopes.Padded s'.scopes

theorem RunState.Padded.trans {s s₁ s₂ : RunState} (h₁ : s.Padded s₁) (h₂ : s₁.Padded s₂) : s.Padded s₂ :=
  ⟨h₂.population.trans h₁.population, h₂.activation.trans h₁.activation, h₁.scopes.trans h₂.scopes⟩

/-- The step ended, with a value or a fault, in a state that satisfies `P`; or else `late` holds. -/
def Outcome.Ends {α : Type} (late : Prop) (P : RunState → Prop) : Outcome α → Prop
  | .done _ s | .failed _ s => P s
  | .exhausted => late

theorem Outcome.Ends.mono {α : Type} {late late' : Prop} {P Q : RunState → Prop} {o : Outcome α}
    (h : o.Ends late P) (hlate : late → late') (hPQ : ∀ s, P s → Q s) : o.Ends late' Q := by
  cases o with
  | done a s | failed f s => exact hPQ s h
  | exhausted => exact hlate h

namespace Run

variable {α β : Type} {late : Prop}

/-- Where a block is open and no attribute is derived, the step only pads variables. It ends, unless `late` holds. -/
def Effectless (late : Prop) (x : Run α) : Prop :=
  ∀ s : RunState, s.scopes.Open → s.population.Underived → (x s).Ends late s.Padded

theorem Effectless.bind {x : Run α} {f : α → Run β} (hx : Effectless late x) (hf : ∀ a, Effectless late (f a)) :
    Effectless late (x >>= f) := by
  intro s hs hp
  have hends := hx s hs hp
  show (Run.bind x f s).Ends late _
  unfold Run.bind
  cases hxs : x s with
  | done a s₁ =>
    rw [hxs] at hends
    exact (hf a s₁ hends.scopes.open (hends.population ▸ hp)).mono id fun s₂ h₂ => hends.trans h₂
  | failed e s₁ | exhausted =>
    rw [hxs] at hends
    exact hends

/-! ## Steps that leave the variables alone -/

theorem effectless_pure (a : α) : Effectless late (Pure.pure a : Run α) := fun _ hs _ => ⟨rfl, rfl, hs.padded_refl⟩

theorem effectless_fail (f : Fault) : Effectless late (fail f : Run α) := fun _ hs _ => ⟨rfl, rfl, hs.padded_refl⟩

theorem effectless_look (f : RunState → α) : Effectless late (look f) := fun _ hs _ => ⟨rfl, rfl, hs.padded_refl⟩

theorem effectless_ask (f : Population → Except PopulationError α) : Effectless late (ask f) := by
  intro s hs hp
  cases h : f s.population with
  | ok a =>
    rw [ask_ok h]
    exact effectless_pure a s hs hp
  | error e =>
    rw [ask_error h]
    exact effectless_fail (.population e) s hs hp

theorem effectless_report (line : Nat) (f : Fault) : Effectless late (report line f) :=
  fun _ hs _ => ⟨rfl, rfl, hs.padded_refl⟩

theorem effectless_ofExcept (r : Except Fault α) : Effectless late (ofExcept r) := by
  cases r with
  | ok a => exact effectless_pure a
  | error f => exact effectless_fail f

theorem effectless_readVariable (name : String) : Effectless late (readVariable name) :=
  .bind (effectless_look _) fun _ => effectless_ask _

theorem effectless_expectRef (v : Value) : Effectless late (expectRef v) := by
  unfold expectRef
  split
  · exact effectless_pure _
  · exact effectless_fail _

theorem effectless_expectIndex (v : Value) : Effectless late (expectIndex v) := by
  unfold expectIndex
  split
  · split
    · exact effectless_fail _
    · exact effectless_pure _
  · exact effectless_fail _

/-- What an activation may lack: a receiver, a candidate, an argument, a loop. -/
theorem effectless_found {o : RunState → Option α} {k : Option α → Run β} (hsome : ∀ a, Effectless late (k (some a)))
    (hnone : Effectless late (k none)) : Effectless late (look o >>= k) := by
  refine .bind (effectless_look o) fun found => ?_
  cases found with
  | some a => exact hsome a
  | none => exact hnone

theorem effectless_loopPosition (operator : String) (test : LoopCursor → Bool) (e : Expression) :
    Effectless late (loopPosition operator test e) := by
  unfold loopPosition
  split
  · exact effectless_found (fun c => effectless_pure _) (effectless_fail _)
  · exact effectless_fail _

theorem effectless_isComputed (target : Expression) (name : String) : Effectless late (isComputed target name) := by
  unfold isComputed
  split
  · exact effectless_look _
  · exact effectless_pure _

/-! ## Reading places -/

/-- What the variable holds is padded, up to the index or not at all. -/
theorem padded_updated_growTo (v : Value) (i : Nat) : v.Padded (updated (growTo · i) v) := by
  unfold updated
  cases v with
  | null =>
    dsimp only [elements]
    cases hg : growTo [] i with
    | ok grown =>
      obtain ⟨-, -, n, rfl⟩ := growTo_spec hg
      exact .null n
    | error f => exact .null 0
  | array items =>
    dsimp only [elements]
    cases hg : growTo items i with
    | ok grown =>
      obtain ⟨-, -, n, rfl⟩ := growTo_spec hg
      exact .array items n
    | error f => exact .same _
  | _ => exact .same _

theorem effectless_updateArray (name : String) (i : Nat) (h : List Value → α) :
    Effectless late (updateArray name (growTo · i) h) := by
  intro s hs hp
  obtain ⟨t, ht, heq⟩ := updateArray_install hs name (growTo · i) h
  have hpadded : s.scopes.Padded t := by
    rcases ht with ⟨rfl, -⟩ | hinstall
    · exact hs.padded_refl
    · exact Scopes.padded_install hs (padded_updated_growTo _ i) hinstall
  have hbefore : s.Padded { s with scopes := t } := ⟨rfl, rfl, hpadded⟩
  rw [heq]
  exact (effectless_ofExcept _ { s with scopes := t } hpadded.open hp).mono id fun s' hs' => hbefore.trans hs'

/-- To read a place pads the variable that it is an index of, if it is one. -/
theorem effectless_get (derive : Action → InstanceRef → String → Run Value) (p : Place) :
    Effectless late (get derive p) := by
  induction p with
  | value v => exact effectless_pure v
  | var name => exact effectless_readVariable name
  | field r name =>
    intro s hs hp
    show ((ask (·.readAttribute r name) >>= _) s).Ends late _
    cases h : s.population.readAttribute r name with
    | ok x =>
      -- no body runs to compute the attribute
      obtain ⟨v, rfl⟩ := hp.stored h
      rw [bind_done (ask_ok h)]
      exact effectless_pure v s hs hp
    | error e =>
      rw [bind_failed (ask_error h)]
      exact effectless_fail (α := Value) (.population e) s hs hp
  | index base i ih =>
    by_cases hvar : ∃ name, base = .var name
    · obtain ⟨name, rfl⟩ := hvar
      exact effectless_updateArray name i (·.getD i .null)
    · rw [get_index _ (not_exists.mp hvar)]
      exact .bind ih fun v => .bind (effectless_ofExcept _) fun items => effectless_pure _
  | derived => exact effectless_look _

/-! ## All forms -/

section

variable {eval : Expression → Run Value} {n : Nat}
  (hE : ∀ e : Expression, e.isCallFree = true → e.height ≤ n → Effectless late (eval e))

include hE

theorem effectless_evalUnary (op : UnaryOperator) {operand : Expression} (hcalls : operand.isCallFree = true)
    (hheight : operand.height ≤ n) : Effectless late (evalUnary eval op operand) := by
  have hoperand := hE operand hcalls hheight
  cases op with
  | first | last => exact effectless_loopPosition _ _ operand
  | minus | plus => exact .bind hoperand fun v => effectless_ofExcept _
  | not | empty | notEmpty | cardinality => exact .bind hoperand fun v => effectless_pure _

/-- The place of an expression that denotes one is found from its parts, any other from its value. -/
theorem effectless_place (e : Expression) (hcalls : e.isCallFree = true) (hparts : e.height ≤ n + 1)
    (hwhole : e.isAssignable = false → e.height ≤ n) : Effectless late (place eval e) := by
  fun_induction place eval e with
  | case1 extent name => exact effectless_pure _
  | case2 extent target name =>
    have htarget := hE target hcalls (Nat.le_of_succ_le_succ hparts)
    refine .bind (effectless_isComputed target name) fun computed => ?_
    cases computed with
    | true => exact effectless_pure _
    | false => exact .bind (.bind htarget effectless_expectRef) fun r => effectless_pure _
  | case3 extent target position ih =>
    obtain ⟨htarget, hposition⟩ := Bool.and_eq_true_iff.mp hcalls
    have hheights : max target.height position.height ≤ n := Nat.le_of_succ_le_succ hparts
    refine .bind (ih htarget (by omega) fun _ => by omega) fun base => ?_
    refine .bind (hE position hposition (by omega)) fun v => ?_
    exact .bind (effectless_expectIndex v) fun i => effectless_pure _
  | case4 e hvar hfield hindex =>
    have hvalue : e.isAssignable = false := by
      cases e with
      | var extent name => exact absurd rfl (hvar extent name)
      | field extent target name => exact absurd rfl (hfield extent target name)
      | index extent target position => exact absurd rfl (hindex extent target position)
      | _ => rfl
    exact .bind (hE e hcalls (hwhole hvalue)) fun v => effectless_pure _

theorem effectless_evalForm (host : Host) (activate : Activation → Body → Run Value) (e : Expression)
    (hcalls : e.isCallFree = true) (hheight : e.height ≤ n + 1) :
    Effectless late (evalForm host eval activate e) := by
  cases e with
  | integer | real | string | boolean => exact effectless_pure _
  | enumerator extent enumeration name => exact effectless_ask (·.findEnumerator enumeration name)
  | self | selected =>
    exact .bind (effectless_found (fun r => effectless_pure r) (effectless_fail _)) fun r => effectless_pure _
  | parameter extent name => exact effectless_found (fun v => effectless_pure v) (effectless_fail _)
  | var | field | index =>
    exact .bind (effectless_place hE _ hcalls hheight nofun) fun p => effectless_get _ p
  | unary extent op operand => exact effectless_evalUnary hE op hcalls (Nat.le_of_succ_le_succ hheight)
  | binary extent left op right =>
    obtain ⟨hleft, hright⟩ := Bool.and_eq_true_iff.mp hcalls
    have hheights : max left.height right.height ≤ n := Nat.le_of_succ_le_succ hheight
    refine .bind (hE left hleft (by omega)) fun l => .bind (hE right hright (by omega)) fun r => ?_
    exact effectless_ofExcept _
  | invoke => cases hcalls

theorem effectless_evalStep (host : Host) (activate : Activation → Body → Run Value) (e : Expression)
    (hcalls : e.isCallFree = true) (hheight : e.height ≤ n + 1) :
    Effectless late (evalStep host eval activate e) := by
  intro s hs hp
  have hform := effectless_evalForm hE host activate e hcalls hheight s hs hp
  unfold evalStep recover
  cases hx : evalForm host eval activate e s with
  | done v s₁ | exhausted =>
    rw [hx] at hform
    exact hform
  | failed f s₁ =>
    rw [hx] at hform
    dsimp only
    split
    · have hreport : Effectless late (do report e.extent.start.line f; return Value.null) :=
        .bind (effectless_report _ f) fun _ => effectless_pure _
      exact (hreport s₁ hform.scopes.open (hform.population ▸ hp)).mono id fun s₂ h₂ => hform.trans h₂
    · exact hform

end

/-! ## Whole expressions -/

theorem effectless_eval (host : Host) (fuel : Nat) (e : Expression) (hcalls : e.isCallFree = true) :
    Effectless (fuel < e.height) (eval host fuel e) := by
  induction fuel generalizing e with
  | zero => exact fun s _ _ => e.height_pos
  | succ fuel ih =>
    -- fuel that is too little for a part is too little for the whole
    have hparts : ∀ e' : Expression, e'.isCallFree = true → e'.height ≤ e.height - 1 →
        Effectless (fuel + 1 < e.height) (eval host fuel e') :=
      fun e' hcalls' hheight s hs hp => (ih e' hcalls' s hs hp).mono (fun hlate => by omega) fun _ h => h
    have hpos := e.height_pos
    exact effectless_evalStep hparts host (activate host fuel) e hcalls (by omega)

/-- To evaluate an expression without calls has no effects but that variables are padded. Where a block is open and no
attribute is derived, it ends with as much fuel as the expression is high. However it ends, population and activation
are the same, and of the variables those that were null or arrays may have got nulls behind their elements, and names
that were not bound may be bound in the innermost block to arrays of nulls. -/
theorem eval_only_pads (host : Host) (fuel : Nat) {e : Expression} (hcalls : e.isCallFree = true)
    {s : RunState} (hs : s.scopes.Open) (hp : s.population.Underived) :
    (e.height ≤ fuel → eval host fuel e s ≠ .exhausted) ∧
    (∀ v s', eval host fuel e s = .done v s' → s.Padded s') ∧
    ∀ f s', eval host fuel e s = .failed f s' → s.Padded s' := by
  have hends := effectless_eval host fuel e hcalls s hs hp
  refine ⟨fun hfuel hexhausted => ?_, fun v s' hdone => ?_, fun f s' hfailed => ?_⟩
  · rw [hexhausted] at hends
    exact Nat.not_lt.mpr hfuel hends
  · rw [hdone] at hends
    exact hends
  · rw [hfailed] at hends
    exact hends

/-- A state inside two blocks; the outer one binds an array. -/
def arrayState : RunState :=
  ⟨.initial, ⟨[[[("n", .integer 2)], [("a", .array [.integer 1])]]]⟩, .start "f" none [], #[]⟩

/-- `cardinality m[1] + a[n]` -/
def paddingSum : Expression :=
  .binary .nowhere (.unary .nowhere .cardinality (.index .nowhere (.var .nowhere "m") (.integer .nowhere 1))) .add
    (.index .nowhere (.var .nowhere "a") (.var .nowhere "n"))

/-- The sum fails, since what is read behind the end of an array is null; but both arrays are padded by then. -/
theorem paddingSum_pads_arrayState :
    paddingSum.isCallFree = true ∧ arrayState.scopes.Open ∧ arrayState.population.Underived ∧ paddingSum.height = 4 ∧
    ∃ s', eval (.bare .off) 4 paddingSum arrayState = .failed (.invalidOperands "+" "integer" "null") s' ∧
      s'.scopes = ⟨[[[("m", .array [.null, .null]), ("n", .integer 2)], [("a", .array [.integer 1, .null, .null])]]]⟩ ∧
      arrayState.Padded s' := by
  have hopen : arrayState.scopes.Open := ⟨_, _, _, rfl⟩
  have hunderived : arrayState.population.Underived := nofun
  refine ⟨rfl, hopen, hunderived, rfl, _, rfl, rfl, ?_⟩
  exact (eval_only_pads (.bare .off) 4 (e := paddingSum) rfl hopen hunderived).2.2 _ _ rfl

end Run

end ObjectAction
