/-
Integer arithmetic. An expression of integers, signs and the five operators has an exact value over the integers, and so
has each of its parts. To evaluate it gives its exact value, if every part has a value that 64 bits hold, no divisor is
zero and the one remainder whose quotient does not fit is not taken. Otherwise it fails as the first part says that is
not sound, in the order in which the parts are evaluated.

Main statement: `arithmetic_exact`.
-/
import ObjectAction.Proofs.Run.CallFree

namespace ObjectAction

/-! ## Exact values -/

/-- The integers that 64 bits hold. -/
def Number.Fits (n : Int) : Prop := -2 ^ 63 ≤ n ∧ n ≤ 2 ^ 63 - 1

instance : DecidablePred Number.Fits := fun n => inferInstanceAs (Decidable (-2 ^ 63 ≤ n ∧ n ≤ 2 ^ 63 - 1))

open Number (Fits)

/-- The value over the integers: quotients are rounded toward zero, and remainders have the sign of the dividend. -/
def BinaryOperator.exact : BinaryOperator → Int → Int → Int
  | add, a, b => a + b
  | sub, a, b => a - b
  | mul, a, b => a * b
  | div, a, b => a.tdiv b
  | rem, a, b => a.tmod b
  | _, _, _ => 0

namespace Expression

/-- Integers, signs and operators that are arithmetic. -/
inductive Arithmetic : Expression → Prop
  | integer (x : Extent) (n : Int64) : Arithmetic (.integer x n)
  | sign (x : Extent) {op : UnaryOperator} {operand : Expression} (hop : op ∈ [UnaryOperator.minus, .plus])
    (h : Arithmetic operand) : Arithmetic (.unary x op operand)
  | operation (x : Extent) {op : BinaryOperator} {left right : Expression}
    (hop : op ∈ [BinaryOperator.add, .sub, .mul, .div, .rem]) (hleft : Arithmetic left) (hright : Arithmetic right) :
    Arithmetic (.binary x left op right)

/-- The value of an arithmetic expression over the integers. -/
def exact : Expression → Int
  | integer _ n => n.toInt
  | unary _ .minus operand => -operand.exact
  | unary _ _ operand => operand.exact
  | binary _ left op right => op.exact left.exact right.exact
  | _ => 0

/-- An arithmetic expression and its parts, in the order in which they are evaluated: operands before what is made of
them, from left to right. -/
def nodes : Expression → List Expression
  | unary x op operand => operand.nodes ++ [unary x op operand]
  | binary x left op right => left.nodes ++ (right.nodes ++ [binary x left op right])
  | e => [e]

def dividesByZero : Expression → Bool
  | binary _ _ .div right | binary _ _ .rem right => right.exact = 0
  | _ => false

/-- Whether it is the remainder whose quotient is the only one that does not fit. -/
def dividesLowest : Expression → Bool
  | binary _ left .rem right => left.exact = -2 ^ 63 ∧ right.exact = -1
  | _ => false

/-- What has to hold of each part. -/
structure Sound (e : Expression) : Prop where
  fits : Fits e.exact
  divisor : e.dividesByZero = false
  quotient : e.dividesLowest = false

/-- How the operator is written. -/
def operator : Expression → String
  | unary _ .minus _ => "-"
  | unary _ .plus _ => "+"
  | binary _ _ op _ => op.text
  | _ => ""

/-- Why a part that is not sound fails. -/
def flaw (e : Expression) : Fault := if e.dividesByZero then .divisionByZero else .overflow e.operator

/-- What the operation at the top of an expression may give, if its operands have their exact values. -/
def Yields (e : Expression) (r : Except Fault Value) : Prop :=
  (e.Sound ∧ ∃ n : Int64, n.toInt = e.exact ∧ r = .ok (.integer n)) ∨ (¬ e.Sound ∧ r = .error e.flaw)

/-- What the step may be that evaluates an arithmetic expression. -/
inductive Computed (e : Expression) : Run Value → Prop
  | exact {n : Int64} (hsound : ∀ x ∈ e.nodes, x.Sound) (hn : n.toInt = e.exact) : Computed e (pure (.integer n))
  | flawed {before after : List Expression} {x : Expression} (hnodes : e.nodes = before ++ x :: after)
    (hbefore : ∀ y ∈ before, y.Sound) (hx : ¬ x.Sound) : Computed e (Run.fail x.flaw)

end Expression

/-! ## Operators on integers -/

namespace Number

theorem fits_toInt (n : Int64) : Fits n.toInt := by
  have hlow := Int64.le_toInt n
  have hhigh := Int64.toInt_lt n
  exact ⟨by omega, by omega⟩

theorem fits_tdiv_iff {a b : Int} (ha : Fits a) (hb : b ≠ 0) : Fits (a.tdiv b) ↔ ¬ (a = -2 ^ 63 ∧ b = -1) := by
  unfold Fits at *
  have hsize : (a.tdiv b).natAbs = a.natAbs / b.natAbs := Int.natAbs_tdiv a b
  by_cases hone : b = -1
  · subst hone
    rw [Int.tdiv_neg, Int.tdiv_one]
    omega
  · by_cases hb1 : b = 1
    · subst hb1
      rw [Int.tdiv_one]
      omega
    · -- a divisor of two or more leaves at most half of the dividend
      have hhalf : a.natAbs / b.natAbs ≤ a.natAbs / 2 := Nat.div_le_div_left (by omega) (by decide)
      omega

theorem int64?_of_fits {n : Int} (h : Fits n) : ∃ m : Int64, int64? n = some m ∧ m.toInt = n := by
  unfold Fits at h
  refine ⟨Int64.ofInt n, if_pos (by omega), Int64.toInt_ofInt_of_le (by omega) (by omega)⟩

theorem int64?_eq_none {n : Int} (h : ¬ Fits n) : int64? n = none := by
  unfold Fits at h
  exact if_neg (by omega)

end Number

namespace Run

open Expression (Yields Computed)

/-- A result that is only checked to fit. -/
theorem yields_checked {e : Expression} {op : BinaryOperator} (hoperator : e.operator = op.text)
    (hdivisor : e.dividesByZero = false) (hquotient : e.dividesLowest = false) :
    e.Yields (checked op e.exact) := by
  unfold checked
  by_cases hfits : Fits e.exact
  · obtain ⟨n, hn, hexact⟩ := Number.int64?_of_fits hfits
    rw [hn]
    exact .inl ⟨⟨hfits, hdivisor, hquotient⟩, n, hexact, rfl⟩
  · rw [Number.int64?_eq_none hfits]
    refine .inr ⟨fun hsound => hfits hsound.fits, ?_⟩
    simp [Expression.flaw, hdivisor, hoperator]

theorem integerDivision_div {a b : Int} (hb : b ≠ 0) : integerDivision .div a b = checked .div (a.tdiv b) := by
  unfold integerDivision
  rw [if_neg hb]
  cases checked .div (a.tdiv b) with
  | ok v => rfl
  | error f => rfl

/-- A remainder is refused where the quotient does not fit, and it fits where it is not refused. -/
theorem integerDivision_rem {a b : Int} (hb : b ≠ 0) : integerDivision .rem a b =
    if Fits (a.tdiv b) then checked .rem (a.tmod b) else .error (.overflow BinaryOperator.rem.text) := by
  unfold integerDivision checked
  rw [if_neg hb]
  by_cases hfits : Fits (a.tdiv b)
  · obtain ⟨q, hq, -⟩ := Number.int64?_of_fits hfits
    rw [hq, if_pos hfits]
    rfl
  · rw [Number.int64?_eq_none hfits, if_neg hfits]
    rfl

/-- A division whose divisor is zero fails for that, whether or not the quotient would fit. -/
theorem yields_integerDivision {x : Extent} {left right : Expression} {op : BinaryOperator}
    (hop : op ∈ [BinaryOperator.div, .rem]) (hleft : Fits left.exact) :
    (Expression.binary x left op right).Yields (integerDivision op left.exact right.exact) := by
  have hdivides : (Expression.binary x left op right).dividesByZero = decide (right.exact = 0) := by
    simp only [List.mem_cons, List.not_mem_nil, or_false] at hop
    rcases hop with rfl | rfl <;> rfl
  by_cases hzero : right.exact = 0
  · rw [decide_eq_true hzero] at hdivides
    unfold integerDivision
    rw [if_pos hzero]
    refine .inr ⟨fun hsound => ?_, by simp [Expression.flaw, hdivides]⟩
    rw [hsound.divisor] at hdivides
    cases hdivides
  · rw [decide_eq_false hzero] at hdivides
    simp only [List.mem_cons, List.not_mem_nil, or_false] at hop
    rcases hop with rfl | rfl
    · rw [integerDivision_div hzero]
      exact yields_checked (e := .binary x left .div right) rfl hdivides rfl
    · rw [integerDivision_rem hzero]
      by_cases hlowest : left.exact = -2 ^ 63 ∧ right.exact = -1
      · have hrefused : (Expression.binary x left .rem right).dividesLowest = true := decide_eq_true hlowest
        rw [if_neg (fun hfits => (Number.fits_tdiv_iff hleft hzero).mp hfits hlowest)]
        refine .inr ⟨fun hsound => ?_, by simp [Expression.flaw, hdivides, Expression.operator]⟩
        rw [hsound.quotient] at hrefused
        cases hrefused
      · rw [if_pos ((Number.fits_tdiv_iff hleft hzero).mpr hlowest)]
        exact yields_checked (e := .binary x left .rem right) rfl hdivides (decide_eq_false hlowest)

theorem yields_binary {x : Extent} {left right : Expression} {op : BinaryOperator} {m n : Int64}
    (hop : op ∈ [BinaryOperator.add, .sub, .mul, .div, .rem]) (hm : m.toInt = left.exact) (hn : n.toInt = right.exact) :
    (Expression.binary x left op right).Yields (binary op (.integer m) (.integer n)) := by
  have hleft := Number.fits_toInt m
  rw [hm] at hleft
  have hchecked : op ∈ [BinaryOperator.add, .sub, .mul] →
      (Expression.binary x left op right).Yields (checked op (op.exact m.toInt n.toInt)) := by
    intro hop
    rw [hm, hn]
    simp only [List.mem_cons, List.not_mem_nil, or_false] at hop
    rcases hop with rfl | rfl | rfl <;> exact yields_checked (e := .binary x left _ right) rfl rfl rfl
  have hdivision : op ∈ [BinaryOperator.div, .rem] →
      (Expression.binary x left op right).Yields (integerDivision op m.toInt n.toInt) := by
    intro hop
    rw [hm, hn]
    exact yields_integerDivision hop hleft
  cases op with
  | add | sub | mul => exact hchecked (by simp)
  | div | rem => exact hdivision (by simp)
  | _ => simp at hop

theorem yields_negate {x : Extent} {operand : Expression} {n : Int64} (hn : n.toInt = operand.exact) :
    (Expression.unary x .minus operand).Yields (negate (.integer n)) := by
  unfold negate
  dsimp only
  rw [hn]
  by_cases hfits : Fits (-operand.exact)
  · obtain ⟨m, hm, hexact⟩ := Number.int64?_of_fits hfits
    rw [hm]
    exact .inl ⟨⟨hfits, rfl, rfl⟩, m, hexact, rfl⟩
  · rw [Number.int64?_eq_none hfits]
    exact .inr ⟨fun hsound => hfits hsound.fits, rfl⟩

theorem yields_affirm {x : Extent} {operand : Expression} {n : Int64} (hn : n.toInt = operand.exact) :
    (Expression.unary x .plus operand).Yields (affirm (.integer n)) := by
  have hfits := Number.fits_toInt n
  rw [hn] at hfits
  exact .inl ⟨⟨hfits, rfl, rfl⟩, n, hn, rfl⟩

/-! ## Evaluation -/

/-- The operation at the top is the last that is evaluated. -/
theorem computed_ofExcept {e : Expression} {r : Except Fault Value} {before : List Expression} (h : e.Yields r)
    (hnodes : e.nodes = before ++ [e]) (hbefore : ∀ y ∈ before, y.Sound) : e.Computed (ofExcept r) := by
  rcases h with ⟨hsound, n, hn, rfl⟩ | ⟨hflawed, rfl⟩
  · refine .exact (fun y hy => ?_) hn
    rw [hnodes, List.mem_append, List.mem_singleton] at hy
    rcases hy with hy | rfl
    · exact hbefore y hy
    · exact hsound
  · exact .flawed hnodes hbefore hflawed

theorem computed_evalStep {host : Host} {eval : Expression → Run Value}
    {activate : Activation → Body → Run Value} {e : Expression}
    (h : e.Computed (evalForm host eval activate e)) : e.Computed (evalStep host eval activate e) := by
  unfold evalStep
  generalize evalForm host eval activate e = form at h ⊢
  cases h with
  | exact hsound hn => exact .exact hsound hn
  | @flawed before after x hnodes hbefore hx =>
    -- no flaw is one of the population, so nothing is reported here
    have hflaw : isPopulationFault x.flaw = false := by
      unfold Expression.flaw
      split <;> rfl
    have hfail : recover (fail x.flaw) isPopulationFault (fun f => do report e.extent.start.line f; return Value.null) =
        fail x.flaw := by
      funext s
      simp [recover, fail, hflaw]
    rw [hfail]
    exact .flawed hnodes hbefore hx

theorem computed_sign {x : Extent} {op : UnaryOperator} {operand : Expression} {step : Run Value}
    {g : Value → Except Fault Value} (h : operand.Computed step)
    (hg : ∀ n : Int64, n.toInt = operand.exact → (Expression.unary x op operand).Yields (g (.integer n))) :
    (Expression.unary x op operand).Computed (do ofExcept (g (← step))) := by
  cases h with
  | @exact n hsound hn => exact computed_ofExcept (hg n hn) rfl hsound
  | @flawed before after y hnodes hbefore hy =>
    have hwhole : (Expression.unary x op operand).nodes = before ++ y :: (after ++ [.unary x op operand]) := by
      simp [Expression.nodes, hnodes]
    exact .flawed hwhole hbefore hy

/-- The left operand is evaluated first, and the right one only if that gave a value. -/
theorem computed_operation {x : Extent} {op : BinaryOperator} {left right : Expression} {first second : Run Value}
    (hop : op ∈ [BinaryOperator.add, .sub, .mul, .div, .rem]) (hleft : left.Computed first)
    (hright : right.Computed second) : (Expression.binary x left op right).Computed (do
      let l ← first
      let r ← second
      ofExcept (binary op l r)) := by
  cases hleft with
  | @flawed before after y hnodes hbefore hy =>
    have hwhole : (Expression.binary x left op right).nodes =
        before ++ y :: (after ++ (right.nodes ++ [.binary x left op right])) := by simp [Expression.nodes, hnodes]
    exact .flawed hwhole hbefore hy
  | @exact m hsound hm =>
    cases hright with
    | @flawed before after y hnodes hbefore hy =>
      have hwhole : (Expression.binary x left op right).nodes =
          (left.nodes ++ before) ++ y :: (after ++ [.binary x left op right]) := by simp [Expression.nodes, hnodes]
      exact .flawed hwhole (List.forall_mem_append.mpr ⟨hsound, hbefore⟩) hy
    | @exact n hsound' hn =>
      have hwhole : (Expression.binary x left op right).nodes =
          (left.nodes ++ right.nodes) ++ [.binary x left op right] := by simp [Expression.nodes]
      exact computed_ofExcept (yields_binary hop hm hn) hwhole (List.forall_mem_append.mpr ⟨hsound, hsound'⟩)

theorem computed_eval {e : Expression} (he : e.Arithmetic) (host : Host) {fuel : Nat}
    (hfuel : e.height ≤ fuel) : e.Computed (eval host fuel e) := by
  induction he generalizing fuel with
  | integer x n =>
    cases fuel with
    | zero => cases hfuel
    | succ fuel =>
      refine computed_evalStep (.exact (fun y hy => ?_) rfl)
      obtain rfl := List.mem_singleton.mp hy
      exact ⟨Number.fits_toInt n, rfl, rfl⟩
  | @sign x op operand hop h ih =>
    cases fuel with
    | zero => cases hfuel
    | succ fuel =>
      have hoperand := ih (Nat.le_of_succ_le_succ hfuel)
      simp only [List.mem_cons, List.not_mem_nil, or_false] at hop
      rcases hop with rfl | rfl
      · exact computed_evalStep (computed_sign hoperand fun n hn => yields_negate hn)
      · exact computed_evalStep (computed_sign hoperand fun n hn => yields_affirm hn)
  | @operation x op left right hop hleft hright ihleft ihright =>
    cases fuel with
    | zero => cases hfuel
    | succ fuel =>
      have hheights : max left.height right.height ≤ fuel := Nat.le_of_succ_le_succ hfuel
      exact computed_evalStep (computed_operation hop (ihleft (by omega)) (ihright (by omega)))

/-! ## Returned values -/

/-- A body that returns what cannot be evaluated gives null, and says why. -/
theorem bodyWithin_return_fail {host : Host} {fuel : Nat} {e : Expression} {f : Fault}
    (he : eval host fuel e = fail f) (hf : f.isRecoverable = true) (p : Population) {a : Activation}
    (ha : ∀ cell ∈ a.derived, cell.result = .null) (x y z : Extent) :
    bodyWithin host (fuel + 1) p a ⟨x, .mk y [.returnValue z (some e)]⟩ =
      some ⟨.null, p, #[.fault a.label z.start.line f]⟩ := by
  have hexec : exec host (fuel + 1) (.returnValue z (some e)) = (do report z.start.line f; return .normal) := by
    funext s
    show recover (do return Signal.returned (← eval host fuel e)) Fault.isRecoverable _ s = _
    rw [he]
    unfold recover
    exact if_pos hf
  have hblock : inScope (execBlock (exec host (fuel + 1)) (.mk y [.returnValue z (some e)])) ⟨p, .empty, a, #[]⟩ =
      .done .normal ⟨p, .empty, a, #[.fault a.label z.start.line f]⟩ := by
    unfold execBlock execAll
    dsimp only [Block.statements]
    rw [hexec]
    rfl
  have hbody : execBody (exec host (fuel + 1)) ⟨x, .mk y [.returnValue z (some e)]⟩ ⟨p, .empty, a, #[]⟩ =
      .done .null ⟨p, .empty, a, #[.fault a.label z.start.line f]⟩ := by
    unfold execBody
    rw [bind_done hblock]
    obtain ⟨label, receiver, arguments, derived, candidates, loops⟩ := a
    cases derived with
    | none => rfl
    | some cell => exact congrArg (Outcome.done · _) (ha cell rfl)
  unfold bodyWithin start settle recover
  rw [hbody]

theorem flaw_recoverable (e : Expression) : e.flaw.isRecoverable = true := by
  unfold Expression.flaw
  split <;> rfl

/-- Arithmetic is exact or fails. To evaluate an expression of integers, signs and arithmetic operators gives an integer
just if each of its parts is sound, and then it is the exact value of the expression. Otherwise it fails as its first
part says that is not sound, and a body that returns it gives null and reports that once. -/
theorem arithmetic_exact {e : Expression} (he : e.Arithmetic) (host : Host) {fuel : Nat}
    (hfuel : e.height ≤ fuel) (s : RunState) :
    ((∃ n s', eval host fuel e s = .done (.integer n) s') ↔ ∀ x ∈ e.nodes, x.Sound) ∧
    (∀ v s', eval host fuel e s = .done v s' → s' = s ∧ ∃ n : Int64, v = .integer n ∧ n.toInt = e.exact) ∧
    ((¬ ∀ x ∈ e.nodes, x.Sound) → ∃ before x after, e.nodes = before ++ x :: after ∧ (∀ y ∈ before, y.Sound) ∧
      ¬ x.Sound ∧ eval host fuel e s = .failed x.flaw s ∧
      ∀ (p : Population) (a : Activation), (∀ cell ∈ a.derived, cell.result = .null) → ∀ outer inner extent : Extent,
        bodyWithin host (fuel + 1) p a ⟨outer, .mk inner [.returnValue extent (some e)]⟩ =
          some ⟨.null, p, #[.fault a.label extent.start.line x.flaw]⟩) := by
  have hcomputed := computed_eval he host hfuel
  generalize heval : eval host fuel e = step at hcomputed
  cases hcomputed with
  | @exact n hsound hn =>
    refine ⟨⟨fun _ => hsound, fun _ => ⟨n, s, rfl⟩⟩, fun v s' hdone => ?_, fun hflawed => absurd hsound hflawed⟩
    cases hdone
    exact ⟨rfl, n, rfl, hn⟩
  | @flawed before after x hnodes hbefore hx =>
    have hmem : x ∈ e.nodes := by simp [hnodes]
    refine ⟨⟨?_, fun hsound => absurd (hsound x hmem) hx⟩, nofun, fun _ => ?_⟩
    · rintro ⟨n, s', hdone⟩
      cases hdone
    refine ⟨before, x, after, hnodes, hbefore, hx, rfl, fun p a ha outer inner extent => ?_⟩
    exact bodyWithin_return_fail heval (flaw_recoverable x) p ha outer inner extent

/-- `(-9223372036854775807 - 1) % -1` -/
def lowestRemainder : Expression :=
  .binary .nowhere (.binary .nowhere (.unary .nowhere .minus (.integer .nowhere 9223372036854775807)) .sub
    (.integer .nowhere 1)) .rem (.unary .nowhere .minus (.integer .nowhere 1))

/-- `(-9223372036854775807 - 1) % -1 + 1 / 0` -/
def twoFlaws : Expression :=
  .binary .nowhere lowestRemainder .add (.binary .nowhere (.integer .nowhere 1) .div (.integer .nowhere 0))

/-- The remainder is zero, but it is refused, and before the division by zero is reached. -/
theorem twoFlaws_overflows :
    twoFlaws.Arithmetic ∧ twoFlaws.height = 5 ∧ lowestRemainder.exact = 0 ∧ lowestRemainder ∈ twoFlaws.nodes ∧
    ∃ before x after, twoFlaws.nodes = before ++ x :: after ∧ (∀ y ∈ before, y.Sound) ∧ ¬ x.Sound ∧
      x.flaw = .overflow "%" ∧ eval (.bare .off) 5 twoFlaws nestedState = .failed (.overflow "%") nestedState ∧
      bodyWithin (.bare .off) 6 .initial (.start "f" none [])
          ⟨.nowhere, .mk .nowhere [.returnValue .nowhere (some twoFlaws)]⟩ =
        some ⟨.null, .initial, #[.fault "f" Extent.nowhere.start.line (.overflow "%")]⟩ := by
  have hone : (Expression.unary .nowhere .minus (.integer .nowhere 1)).Arithmetic :=
    .sign _ (by decide) (.integer _ _)
  have hlowest : lowestRemainder.Arithmetic :=
    .operation _ (by decide) (.operation _ (by decide) (.sign _ (by decide) (.integer _ _)) (.integer _ _)) hone
  have harithmetic : twoFlaws.Arithmetic :=
    .operation _ (by decide) hlowest (.operation _ (by decide) (.integer _ _) (.integer _ _))
  have hmem : lowestRemainder ∈ twoFlaws.nodes := by simp [twoFlaws, lowestRemainder, Expression.nodes]
  have hflawed : ¬ ∀ x ∈ twoFlaws.nodes, x.Sound := fun hsound => nomatch (hsound lowestRemainder hmem).quotient
  have hheight : twoFlaws.height ≤ 5 := le_of_eq rfl
  obtain ⟨before, x, after, hnodes, hbefore, hx, heval, hreturn⟩ :=
    (arithmetic_exact harithmetic (.bare .off) hheight nestedState).2.2 hflawed
  have hfailed : eval (.bare .off) 5 twoFlaws nestedState = .failed (.overflow "%") nestedState := rfl
  have hflaw : x.flaw = .overflow "%" := (Outcome.failed.inj (heval.symm.trans hfailed)).1
  have hbody := hreturn .initial (.start "f" none []) nofun .nowhere .nowhere .nowhere
  rw [hflaw] at hbody
  exact ⟨harithmetic, rfl, rfl, hmem, before, x, after, hnodes, hbefore, hx, hflaw, hfailed, hbody⟩

end Run

end ObjectAction
