/-
Paths along a chain of hops. A path takes one hop after the other, and each hop goes to one of the instances that
it reaches. The ends of all paths from an instance can be listed in the order in which they are met.

Instances that are met again may be dropped at any hop: the paths from them are the ones that were followed
before, so what is met, and what is met first, stays the same (`distinct_flatMap_distinct`).
-/
import ObjectAction.Body.Tree
import ObjectAction.Proofs.Population.Navigation

namespace ObjectAction

namespace Population

/-! ## Repetitions in the order of first occurrence -/

theorem distinct_filter (q : InstanceRef → Bool) (rs : List InstanceRef) :
    distinct (rs.filter q) = (distinct rs).filter q := by
  induction rs with
  | nil => rfl
  | cons r rs ih =>
    cases hq : q r with
    | true =>
      rw [List.filter_cons_of_pos hq, distinct, distinct, List.filter_cons_of_pos hq, ih, List.filter_comm]
    | false =>
      have hdrop : ((distinct rs).filter (· ≠ r)).filter q = (distinct rs).filter q := by
        rw [List.filter_filter]
        apply List.filter_congr
        intro x _
        by_cases hx : x = r
        · rw [hx, hq]
          rfl
        · simp [hx]
      rw [List.filter_cons_of_neg (by simp [hq]), distinct, List.filter_cons_of_neg (by simp [hq]), hdrop, ih]

theorem distinct_append (rs ts : List InstanceRef) :
    distinct (rs ++ ts) = distinct rs ++ (distinct ts).filter (· ∉ rs) := by
  induction rs with
  | nil => simp [distinct]
  | cons r rs ih =>
    rw [List.cons_append, distinct, distinct, ih, List.filter_append, List.filter_filter, List.cons_append]
    congr 2
    apply List.filter_congr
    intro x _
    simp

theorem flatMap_filter_ne {f : InstanceRef → List InstanceRef} {r : InstanceRef} (hr : f r = [])
    (rs : List InstanceRef) : (rs.filter (· ≠ r)).flatMap f = rs.flatMap f := by
  induction rs with
  | nil => rfl
  | cons t rs ih =>
    by_cases ht : t = r
    · rw [List.filter_cons_of_neg (by simp [ht]), List.flatMap_cons, ih, ht, hr, List.nil_append]
    · rw [List.filter_cons_of_pos (by simp [ht]), List.flatMap_cons, List.flatMap_cons, ih]

/-- What a second occurrence leads to has been met before. -/
theorem distinct_flatMap_distinct (f : InstanceRef → List InstanceRef) (rs : List InstanceRef) :
    distinct ((distinct rs).flatMap f) = distinct (rs.flatMap f) := by
  induction rs with
  | nil => rfl
  | cons r rs ih =>
    have hself : (f r).filter (· ∉ f r) = [] :=
      List.filter_eq_nil_iff.mpr fun x hx => by simpa using hx
    -- behind the first occurrence, what it leads to is dropped
    have hrest : ∀ ts : List InstanceRef, (distinct ((ts.filter (· ≠ r)).flatMap f)).filter (· ∉ f r) =
        (distinct (ts.flatMap f)).filter (· ∉ f r) := by
      intro ts
      rw [← distinct_filter, ← distinct_filter, List.filter_flatMap, List.filter_flatMap]
      exact congrArg distinct (flatMap_filter_ne hself ts)
    rw [distinct, List.flatMap_cons, List.flatMap_cons, distinct_append, distinct_append, hrest, ih]

/-- The references stand in the order of their first occurrences. -/
theorem pairwise_distinct (rs : List InstanceRef) :
    (distinct rs).Pairwise fun x y => rs.idxOf x < rs.idxOf y := by
  induction rs with
  | nil => exact .nil
  | cons r rs ih =>
    have hafter : ∀ x ∈ (distinct rs).filter (· ≠ r), (r :: rs).idxOf x = rs.idxOf x + 1 := by
      intro x hx
      have hne : x ≠ r := of_decide_eq_true (List.mem_filter.mp hx).2
      exact List.idxOf_cons_ne rs hne.symm
    apply List.Pairwise.cons
    · intro x hx
      rw [List.idxOf_cons_self, hafter x hx]
      exact Nat.succ_pos _
    · apply (ih.filter _).imp_of_mem
      intro x y hx hy hxy
      rw [hafter x hx, hafter y hy]
      omega

/-! ## Paths -/

/-- What one hop of a chain reaches from an instance. -/
def along (p : Population) (step : NavigationStep) (x : InstanceRef) :
    Except PopulationError (List InstanceRef) :=
  p.navigate x step.className step.relationship.id step.relationship.phrase

/-- The hops of the chain, one after the other, lead from the first instance to the second. -/
inductive Path (p : Population) : InstanceRef → List NavigationStep → InstanceRef → Prop
  | nil (x : InstanceRef) : Path p x [] x
  | cons {x y z : InstanceRef} {step : NavigationStep} {rest : List NavigationStep} {ys : List InstanceRef}
    (hop : p.along step x = .ok ys) (reaches : y ∈ ys) (tail : Path p y rest z) : Path p x (step :: rest) z

/-- A hop of the chain fails at an instance to which the hops before it lead. -/
def Blocked (p : Population) (x : InstanceRef) (chain : List NavigationStep) (e : PopulationError) : Prop :=
  ∃ before step after y, chain = before ++ step :: after ∧ p.Path x before y ∧ p.along step y = .error e

/-- What a hop reaches; nothing if it fails. -/
def reached (p : Population) (step : NavigationStep) (x : InstanceRef) : List InstanceRef :=
  match p.along step x with
  | .ok ys => ys
  | .error _ => []

/-- The ends of all paths from an instance, in the order in which they are met if each hop goes to what it reaches
in order. -/
def ends (p : Population) : List NavigationStep → InstanceRef → List InstanceRef
  | [], x => [x]
  | step :: rest, x => (p.reached step x).flatMap (p.ends rest)

variable {p : Population} {x y z : InstanceRef} {step : NavigationStep} {rest : List NavigationStep}

theorem mem_reached : y ∈ p.reached step x ↔ ∃ ys, p.along step x = .ok ys ∧ y ∈ ys := by
  unfold reached
  cases p.along step x with
  | ok ys => simp
  | error e => simp

theorem path_cons : p.Path x (step :: rest) z ↔ ∃ y ∈ p.reached step x, p.Path y rest z := by
  constructor
  · intro h
    cases h with
    | cons hop reaches tail => exact ⟨_, mem_reached.mpr ⟨_, hop, reaches⟩, tail⟩
  · rintro ⟨y, hy, htail⟩
    obtain ⟨ys, hop, reaches⟩ := mem_reached.mp hy
    exact .cons hop reaches htail

theorem mem_ends (chain : List NavigationStep) : z ∈ p.ends chain x ↔ p.Path x chain z := by
  induction chain generalizing x with
  | nil =>
    rw [ends, List.mem_singleton]
    constructor
    · rintro rfl
      exact .nil z
    · intro h
      cases h
      rfl
  | cons step rest ih =>
    rw [ends, List.mem_flatMap, path_cons]
    exact exists_congr fun y => and_congr_right fun _ => ih

theorem not_blocked_nil (x : InstanceRef) (e : PopulationError) : ¬ p.Blocked x [] e := by
  rintro ⟨before, step, after, y, hchain, -⟩
  cases before <;> cases hchain

theorem blocked_cons {e : PopulationError} :
    p.Blocked x (step :: rest) e ↔ p.along step x = .error e ∨ ∃ y ∈ p.reached step x, p.Blocked y rest e := by
  constructor
  · rintro ⟨before, step', after, z, hchain, hpath, hfails⟩
    cases before with
    | nil =>
      cases hchain
      cases hpath
      exact .inl hfails
    | cons first before =>
      cases hchain
      obtain ⟨y, hy, htail⟩ := path_cons.mp hpath
      exact .inr ⟨y, hy, before, step', after, z, rfl, htail, hfails⟩
  · rintro (hfails | ⟨y, hy, before, step', after, z, rfl, htail, hfails⟩)
    · exact ⟨[], step, rest, x, rfl, .nil x, hfails⟩
    · exact ⟨step :: before, step', after, z, rfl, path_cons.mpr ⟨y, hy, htail⟩, hfails⟩

end Population

end ObjectAction
