/-
Selections. A navigation along a chain binds the ends of all paths from where it starts, in the order in which they
are met first; a hop that fails anywhere on the way ends the statement before anything is bound. And a selection of
a single instance binds the first one that a selection of many would bind: the condition is tested on the same
candidates, from the same states, up to the first that satisfies it.

Main statements: `selectRelated_binds_ends` and `select_single_head`.
-/
import ObjectAction.Proofs.Population.Path
import ObjectAction.Proofs.Run.Signal
import ObjectAction.Proofs.Scope.Lookup

namespace ObjectAction

/-! ## Binding a variable -/

namespace Scopes

variable {t t' : Scopes}

theorem open_of_install {name : String} {v : Value} (h : t.install name v = .ok t') : t.Open := by
  obtain ⟨stack⟩ := t
  match stack with
  | [] => cases h
  | [] :: outer => cases h
  | (b :: bs) :: outer => exact ⟨b, bs, outer, rfl⟩

theorem Keeps.open_of_open (h : Keeps t t') (ht' : t'.Open) : t.Open := by
  obtain ⟨b', bs', outer', hstack⟩ := ht'
  cases h with
  | mk blocks =>
    cases hstack
    cases blocks with
    | cons hb hbs => exact ⟨_, _, _, rfl⟩

end Scopes

namespace Run

open Fault (isRecoverable)
open Population (distinct)

variable {host : Host} {fuel : Nat} {s s' s₁ : RunState}

/-- The statement ends normally, and not because a fault was reported for it. -/
def Succeeds (host : Host) (fuel : Nat) (st : Statement) (s s' : RunState) : Prop :=
  execForm host fuel (eval host fuel) (exec host fuel) (activate host fuel) st s =
    .done .normal s'

theorem Succeeds.exec_eq {st : Statement} (h : Succeeds host fuel st s s') :
    exec host (fuel + 1) st s = .done .normal s' := by
  unfold exec execStep recover
  rw [h]

theorem exec_of_failed {st : Statement} {f : Fault}
    (h : execForm host fuel (eval host fuel) (exec host fuel) (activate host fuel) st s =
      .failed f s') (hf : isRecoverable f = true) :
    exec host (fuel + 1) st s = .done .normal
      { s' with journal := s'.journal.push (.fault s'.activation.label st.extent.start.line f) } := by
  unfold exec execStep recover
  rw [h]
  simp only [hf, if_true]
  rfl

theorem install_of_ok {name : String} {v : Value} {t : Scopes} (h : s.scopes.install name v = .ok t) :
    install name v s = .done () { s with scopes := t } :=
  changeScopes_ok (congrArg (Except.map ((), ·)) h)

theorem install_done {name : String} {v : Value} (h : install name v s = .done () s') :
    ∃ t, s.scopes.install name v = .ok t ∧ s' = { s with scopes := t } := by
  cases ht : s.scopes.install name v with
  | ok t =>
    rw [install_of_ok ht] at h
    cases h
    exact ⟨t, rfl, rfl⟩
  | error e =>
    simp only [install, changeScopes, ht, Except.map] at h
    cases h

theorem ok_of_ask {α : Type} {f : Population → Except PopulationError α} {a : α} (h : ask f s = .done a s') :
    f s.population = .ok a ∧ s' = s := by
  unfold ask at h
  cases hf : f s.population with
  | ok b =>
    rw [hf] at h
    cases h
    exact ⟨rfl, rfl⟩
  | error e =>
    rw [hf] at h
    cases h

/-! ## Following a chain -/

/-- The instances at which a navigation starts are found without any change, or it fails there. -/
theorem startInstances_cases (start : NavigationStart) (s : RunState) :
    (∃ xs, startInstances start s = .done xs s) ∨
      ∃ f, isRecoverable f = true ∧ startInstances start s = .failed f s := by
  cases start with
  | self =>
    cases hr : s.activation.receiver with
    | some r => exact .inl ⟨[r], by simp only [startInstances, receiver, bind, Run.bind, look, hr]; rfl⟩
    | none => exact .inr ⟨.noSelf, rfl, by simp only [startInstances, receiver, bind, Run.bind, look, hr]; rfl⟩
  | selected =>
    cases hr : s.activation.candidates.head? with
    | some r => exact .inl ⟨[r], by simp only [startInstances, selected, bind, Run.bind, look, hr]; rfl⟩
    | none => exact .inr ⟨.noSelected, rfl, by simp only [startInstances, selected, bind, Run.bind, look, hr]; rfl⟩
  | var name =>
    have hread : readVariable name s = ask (resolveName s.scopes · name) s := bind_done rfl
    cases hv : resolveName s.scopes s.population name with
    | error e => exact .inr ⟨.population e, rfl, bind_failed (hread.trans (ask_error hv))⟩
    | ok v =>
      have hexpect : startInstances (.var name) s = expectInstances "instance or instance set" v s :=
        bind_done (hread.trans (ask_ok hv))
      rw [hexpect]
      unfold expectInstances
      cases v.instances? with
      | some refs => exact .inl ⟨refs, rfl⟩
      | none => exact .inr ⟨_, rfl, rfl⟩

/-- One hop from each instance gives what the instances reach, one after the other, unless one of them fails. -/
theorem hop_cases (step : NavigationStep) (refs : List InstanceRef) (s : RunState) :
    ((∀ x ∈ refs, ∀ e, s.population.along step x ≠ .error e) ∧
      hop step refs s = .done (refs.flatMap (s.population.reached step)) s) ∨
    ∃ x ∈ refs, ∃ e, s.population.along step x = .error e ∧ hop step refs s = .failed (.population e) s := by
  induction refs with
  | nil => exact .inl ⟨nofun, rfl⟩
  | cons x rest ih =>
    cases hx : s.population.along step x with
    | error e =>
      have hask : ask (·.along step x) s = .failed (.population e) s := ask_error hx
      exact .inr ⟨x, List.mem_cons_self, e, hx, bind_failed hask⟩
    | ok ys =>
      have hask : ask (·.along step x) s = .done ys s := ask_ok hx
      have hreached : s.population.reached step x = ys := by simp only [Population.reached, hx]
      have hhop : hop step (x :: rest) s = (hop step rest >>= fun others => pure (ys ++ others)) s := bind_done hask
      rw [hhop]
      rcases ih with ⟨hall, hdone⟩ | ⟨y, hy, e, hfails, hfailed⟩
      · refine .inl ⟨?_, ?_⟩
        · intro y hy e
          rcases List.mem_cons.mp hy with rfl | hy
          · rw [hx]
            nofun
          · exact hall y hy e
        · rw [bind_done hdone, List.flatMap_cons, hreached]
          rfl
      · exact .inr ⟨y, List.mem_cons_of_mem x hy, e, hfails, bind_failed hfailed⟩

/-- How following a chain from some instances can end: with the ends of all paths, or at a hop that fails. -/
inductive Followed (chain : List NavigationStep) (refs : List InstanceRef) (s : RunState) :
    Outcome (List InstanceRef) → Prop
  | all (hall : ∀ x ∈ refs, ∀ e, ¬ s.population.Blocked x chain e) :
    Followed chain refs s (.done (distinct (refs.flatMap (s.population.ends chain))) s)
  | blocked {x : InstanceRef} {e : PopulationError} (hx : x ∈ refs) (hblocked : s.population.Blocked x chain e) :
    Followed chain refs s (.failed (.population e) s)

/-- Repetitions among the instances make no difference. -/
theorem Followed.of_distinct {chain : List NavigationStep} {refs : List InstanceRef}
    {o : Outcome (List InstanceRef)} (h : Followed chain (distinct refs) s o) : Followed chain refs s o := by
  cases h with
  | all hall =>
    rw [Population.distinct_flatMap_distinct]
    exact .all fun x hx => hall x (Population.mem_distinct.mpr hx)
  | blocked hx hblocked => exact .blocked (Population.mem_distinct.mp hx) hblocked

/-- One hop, and then the rest of the chain from what was reached. -/
theorem followed_cons {rest : List NavigationStep}
    (ih : ∀ refs, Followed rest refs s (followChain rest (distinct refs) s)) (step : NavigationStep)
    (refs : List InstanceRef) : Followed (step :: rest) refs s (followChain (step :: rest) refs s) := by
  rcases hop_cases step refs s with ⟨hall, hdone⟩ | ⟨x, hx, e, hfails, hfailed⟩
  · have hfollow : followChain (step :: rest) refs s =
        followChain rest (distinct (refs.flatMap (s.population.reached step))) s := bind_done hdone
    have hends : refs.flatMap (s.population.ends (step :: rest)) =
        (refs.flatMap (s.population.reached step)).flatMap (s.population.ends rest) := List.flatMap_assoc.symm
    rw [hfollow]
    generalize hlayer : refs.flatMap (s.population.reached step) = layer at hends ⊢
    have hrest := ih layer
    generalize followChain rest (distinct layer) s = o at hrest
    cases hrest with
    | all hfree =>
      rw [← hends]
      refine .all fun x hx e hblocked => ?_
      rcases Population.blocked_cons.mp hblocked with hfails | ⟨y, hy, hblocked⟩
      · exact hall x hx e hfails
      · exact hfree y (hlayer ▸ List.mem_flatMap_of_mem hx hy) e hblocked
    | blocked hy hblocked =>
      obtain ⟨x, hx, hy⟩ := List.mem_flatMap.mp (hlayer ▸ hy)
      exact .blocked hx (Population.blocked_cons.mpr (.inr ⟨_, hy, hblocked⟩))
  · have hfollow : followChain (step :: rest) refs s = .failed (.population e) s := bind_failed hfailed
    rw [hfollow]
    exact .blocked hx (Population.blocked_cons.mpr (.inl hfails))

theorem followed_distinct (chain : List NavigationStep) (refs : List InstanceRef) (s : RunState) :
    Followed chain refs s (followChain chain (distinct refs) s) := by
  induction chain generalizing refs with
  | nil =>
    have hends : refs.flatMap (s.population.ends []) = refs := List.flatMap_singleton' refs
    have hall : Followed [] refs s (.done (distinct (refs.flatMap (s.population.ends []))) s) :=
      .all fun x _ e => Population.not_blocked_nil x e
    rw [hends] at hall
    exact hall
  | cons step rest ih => exact (followed_cons ih step (distinct refs)).of_distinct

theorem followed_followChain (step : NavigationStep) (rest : List NavigationStep) (refs : List InstanceRef)
    (s : RunState) : Followed (step :: rest) refs s (followChain (step :: rest) refs s) :=
  followed_cons (fun refs => followed_distinct rest refs s) step refs

/-! ## Navigating -/

/-- From the instances at which it starts, a selection of many along a chain binds all ends, or it fails at a hop. -/
theorem execForm_selectRelated_cases {start : NavigationStart} {xs : List InstanceRef}
    (hstart : startInstances start s = .done xs s) (host : Host) (fuel : Nat) (extent : Extent)
    (name : String) (step : NavigationStep) (rest : List NavigationStep) :
    ((∀ x ∈ xs, ∀ e, ¬ s.population.Blocked x (step :: rest) e) ∧
      execForm host fuel (eval host fuel) (exec host fuel) (activate host fuel)
        (.selectRelated extent .many name start (step :: rest) none) s =
      (install name (.set (distinct (xs.flatMap (s.population.ends (step :: rest))))) >>= fun _ =>
        pure Signal.normal) s) ∨
    ∃ x ∈ xs, ∃ e, s.population.Blocked x (step :: rest) e ∧
      execForm host fuel (eval host fuel) (exec host fuel) (activate host fuel)
        (.selectRelated extent .many name start (step :: rest) none) s = .failed (.population e) s := by
  have hform : execForm host fuel (eval host fuel) (exec host fuel) (activate host fuel)
      (.selectRelated extent .many name start (step :: rest) none) s =
      (followChain (step :: rest) xs >>= fun reached =>
        install name (.set reached) >>= fun _ => pure Signal.normal) s := bind_done hstart
  rw [hform]
  have hfollowed := followed_followChain step rest xs s
  generalize hchain : followChain (step :: rest) xs s = o at hfollowed
  cases hfollowed with
  | all hall => exact .inl ⟨hall, bind_done hchain⟩
  | blocked hx hblocked => exact .inr ⟨_, hx, _, hblocked, bind_failed hchain⟩

/-- A selection of many along a chain, without a condition. If it succeeds, its variable holds each end of a path
from an instance where it starts, once and in the order in which the ends are met first, and nothing else has
changed. If a hop fails at an instance that is reached, such a fault is reported once and nothing else changes.
And if no hop fails it succeeds, wherever a variable can be bound. -/
theorem selectRelated_binds_ends (host : Host) (fuel : Nat) (extent : Extent) (name : String)
    (start : NavigationStart) (step : NavigationStep) (rest : List NavigationStep) (s : RunState) :
    (∀ s', Succeeds host fuel (.selectRelated extent .many name start (step :: rest) none) s s' →
      ∃ xs found, startInstances start s = .done xs s ∧
        s' = { s with scopes := s'.scopes } ∧
        (∀ other, s'.scopes.lookup other = if other = name then some (.set found) else s.scopes.lookup other) ∧
        found.Nodup ∧
        (∀ y, y ∈ found ↔ ∃ x ∈ xs, s.population.Path x (step :: rest) y) ∧
        found.Pairwise fun y z => (xs.flatMap (s.population.ends (step :: rest))).idxOf y <
          (xs.flatMap (s.population.ends (step :: rest))).idxOf z) ∧
    (∀ xs, startInstances start s = .done xs s → (∃ x ∈ xs, ∃ e, s.population.Blocked x (step :: rest) e) →
      ∃ x ∈ xs, ∃ e, s.population.Blocked x (step :: rest) e ∧
        exec host (fuel + 1) (.selectRelated extent .many name start (step :: rest) none) s =
          .done .normal
            { s with journal := s.journal.push (.fault s.activation.label extent.start.line (.population e)) }) ∧
    (∀ xs, startInstances start s = .done xs s → (∀ x ∈ xs, ∀ e, ¬ s.population.Blocked x (step :: rest) e) →
      s.scopes.Open → ∃ s', Succeeds host fuel (.selectRelated extent .many name start (step :: rest) none) s s' ∧
        exec host (fuel + 1) (.selectRelated extent .many name start (step :: rest) none) s =
          .done .normal s') := by
  refine ⟨?_, ?_, ?_⟩
  · intro s' hsucceeds
    obtain ⟨xs, s₁, hstart₁, -⟩ := done_of_bind hsucceeds
    have hstart : startInstances start s = .done xs s := by
      rcases startInstances_cases start s with ⟨ys, hdone⟩ | ⟨f, -, hfailed⟩
      · rw [hdone] at hstart₁
        cases hstart₁
        exact hdone
      · rw [hfailed] at hstart₁
        cases hstart₁
    unfold Succeeds at hsucceeds
    rcases execForm_selectRelated_cases hstart host fuel extent name step rest with
      ⟨-, hform⟩ | ⟨x, -, e, -, hform⟩
    · rw [hform] at hsucceeds
      obtain ⟨_, s₂, hinstall, hpure⟩ := done_of_bind hsucceeds
      cases hpure
      obtain ⟨t, ht, rfl⟩ := install_done hinstall
      refine ⟨xs, _, hstart, rfl, Scopes.lookup_install ht, Population.nodup_distinct _, ?_,
        Population.pairwise_distinct _⟩
      intro y
      rw [Population.mem_distinct, List.mem_flatMap]
      exact exists_congr fun x => and_congr_right fun _ => Population.mem_ends (step :: rest)
    · rw [hform] at hsucceeds
      cases hsucceeds
  · rintro xs hstart ⟨x, hx, e, hblocked⟩
    rcases execForm_selectRelated_cases hstart host fuel extent name step rest with
      ⟨hall, -⟩ | ⟨x', hx', e', hblocked', hform⟩
    · exact absurd hblocked (hall x hx e)
    · exact ⟨x', hx', e', hblocked', exec_of_failed hform rfl⟩
  · intro xs hstart hall hopen
    rcases execForm_selectRelated_cases hstart host fuel extent name step rest with
      ⟨-, hform⟩ | ⟨x, hx, e, hblocked, -⟩
    · obtain ⟨t, ht, -⟩ := Scopes.install_extends hopen name
        (.set (distinct (xs.flatMap (s.population.ends (step :: rest)))))
      have hsucceeds : Succeeds host fuel (.selectRelated extent .many name start (step :: rest) none) s
          { s with scopes := t } := by
        rw [Succeeds, hform, bind_done (install_of_ok ht)]
        rfl
      exact ⟨_, hsucceeds, hsucceeds.exec_eq⟩
    · exact absurd hblocked (hall x hx e)

/-- One company and its two persons, who are in a variable together and one of them in another. -/
def staff : RunState where
  population := Population.initial.afterAll Population.employment
  scopes := ⟨[[[("p", .ref ⟨"Person", 4⟩), ("ps", .set [⟨"Person", 2⟩, ⟨"Person", 4⟩])]]]⟩
  activation := .start "f" none []
  journal := #[]

def toCompany : NavigationStep := ⟨.nowhere, "Company", ⟨"R1", none⟩⟩

def toPerson : NavigationStep := ⟨.nowhere, "Person", ⟨"R1", none⟩⟩

/-- Both persons lead to the company, which is met once, and from there to both of them. There is no way from the
company to itself. -/
theorem selectRelated_binds_ends_staff :
    (∃ s', Succeeds (.bare .off) 0 (.selectRelated .nowhere .many "xs" (.var "ps") [toCompany, toPerson] none)
        staff s' ∧
      s'.scopes.lookup "xs" = some (.set [⟨"Person", 2⟩, ⟨"Person", 4⟩]) ∧
      ∀ y, y ∈ [(⟨"Person", 2⟩ : InstanceRef), ⟨"Person", 4⟩] ↔
        ∃ x ∈ [(⟨"Person", 2⟩ : InstanceRef), ⟨"Person", 4⟩],
          staff.population.Path x [toCompany, toPerson] y) ∧
    (∃ x ∈ [(⟨"Person", 4⟩ : InstanceRef)], ∃ e, staff.population.Blocked x [toCompany, toCompany] e ∧
      exec (.bare .off) 1 (.selectRelated .nowhere .many "xs" (.var "p") [toCompany, toCompany] none) staff =
        .done .normal
          { staff with journal := staff.journal.push (.fault "f" Extent.nowhere.start.line (.population e)) }) ∧
    ∃ s', exec (.bare .off) 1 (.selectRelated .nowhere .many "xs" (.var "p") [toCompany] none) staff =
      .done .normal s' := by
  have hhop : staff.population.along toCompany ⟨"Person", 4⟩ = .ok [⟨"Company", 1⟩] := by decide
  refine ⟨?_, ?_, ?_⟩
  · have hsucceeds : Succeeds (.bare .off) 0
        (.selectRelated .nowhere .many "xs" (.var "ps") [toCompany, toPerson] none) staff
        { staff with scopes := ⟨[[[("p", .ref ⟨"Person", 4⟩), ("ps", .set [⟨"Person", 2⟩, ⟨"Person", 4⟩]),
          ("xs", .set [⟨"Person", 2⟩, ⟨"Person", 4⟩])]]]⟩ } := rfl
    obtain ⟨xs, found, hstart, -, hlookup, -, hpaths, -⟩ :=
      (selectRelated_binds_ends (.bare .off) 0 .nowhere "xs" (.var "ps") toCompany [toPerson] staff).1 _ hsucceeds
    cases hstart
    cases hlookup "xs"
    exact ⟨_, hsucceeds, rfl, hpaths⟩
  · have hblocked : staff.population.Blocked ⟨"Person", 4⟩ [toCompany, toCompany]
        (.unknownRelationship "Company" "Company" "R1" none) :=
      ⟨[toCompany], toCompany, [], ⟨"Company", 1⟩, rfl, .cons hhop (List.mem_singleton.mpr rfl) (.nil _), by decide⟩
    exact (selectRelated_binds_ends (.bare .off) 0 .nowhere "xs" (.var "p") toCompany [toCompany] staff).2.1 _ rfl
      ⟨_, List.mem_singleton.mpr rfl, _, hblocked⟩
  · have hfree : ∀ x ∈ [(⟨"Person", 4⟩ : InstanceRef)], ∀ e, ¬ staff.population.Blocked x [toCompany] e := by
      intro x hx e hblocked
      obtain rfl := List.mem_singleton.mp hx
      rcases Population.blocked_cons.mp hblocked with hfails | ⟨y, -, hblocked⟩
      · rw [hhop] at hfails
        cases hfails
      · exact Population.not_blocked_nil y e hblocked
    obtain ⟨s', -, hexec⟩ := (selectRelated_binds_ends (.bare .off) 0 .nowhere "xs" (.var "p") toCompany []
      staff).2.2 _ rfl hfree ⟨_, _, _, rfl⟩
    exact ⟨s', hexec⟩

/-! ## Selecting a single instance -/

/-- Where a selection takes its candidates from. -/
inductive Source where
  | instancesOf (className : String)
  | relatedBy (start : NavigationStart) (chain : List NavigationStep)

/-- The statement that selects from there. -/
def Source.select (source : Source) (extent : Extent) (cardinality : Cardinality) (name : String)
    (condition : Option Expression) : Statement :=
  match source with
  | instancesOf className => .selectFrom extent cardinality name className condition
  | relatedBy start chain => .selectRelated extent cardinality name start chain condition

def Source.candidates (source : Source) (cardinality : Cardinality) (condition : Option Expression) :
    Run (List InstanceRef) :=
  match source with
  | instancesOf className => candidatesOf cardinality condition className
  | relatedBy start chain => startInstances start >>= followChain chain

section

variable {source : Source} {cardinality : Cardinality} {condition : Option Expression} {extent : Extent} {name : String}
  {cs refs : List InstanceRef}

/-- A selection finds its candidates, keeps some of them and binds its variable. -/
theorem succeeds_select_iff : Succeeds host fuel (source.select extent cardinality name condition) s s' ↔
    ∃ cs s₁ refs s₂, source.candidates cardinality condition s = .done cs s₁ ∧
      keep (eval host fuel) cardinality condition cs s₁ = .done refs s₂ ∧
      bindSelection name cardinality refs s₂ = .done () s' := by
  cases source with
  | instancesOf className =>
    constructor
    · intro h
      obtain ⟨cs, s₁, hcs, h⟩ := done_of_bind h
      obtain ⟨refs, s₂, hkeep, h⟩ := done_of_bind h
      obtain ⟨_, s₃, hbind, hpure⟩ := done_of_bind h
      cases hpure
      exact ⟨cs, s₁, refs, s₂, hcs, hkeep, hbind⟩
    · rintro ⟨cs, s₁, refs, s₂, hcs, hkeep, hbind⟩
      exact (bind_done hcs).trans ((bind_done hkeep).trans (bind_done hbind))
  | relatedBy start chain =>
    constructor
    · intro h
      obtain ⟨xs, s₀, hstart, h⟩ := done_of_bind h
      obtain ⟨cs, s₁, hcs, h⟩ := done_of_bind h
      obtain ⟨refs, s₂, hkeep, h⟩ := done_of_bind h
      obtain ⟨_, s₃, hbind, hpure⟩ := done_of_bind h
      cases hpure
      exact ⟨cs, s₁, refs, s₂, (bind_done hstart).trans hcs, hkeep, hbind⟩
    · rintro ⟨cs, s₁, refs, s₂, hcs, hkeep, hbind⟩
      obtain ⟨xs, s₀, hstart, hcs⟩ := done_of_bind hcs
      exact (bind_done hstart).trans ((bind_done hcs).trans ((bind_done hkeep).trans (bind_done hbind)))

/-- For a single instance the candidates are the same, or only the first of them if there is no condition. -/
theorem candidates_single (h : source.candidates .many condition s = .done cs s₁) (cardinality : Cardinality) :
    ∃ cs', source.candidates cardinality condition s = .done cs' s₁ ∧ cs'.take 1 = cs.take 1 ∧
      (condition.isSome = true → cs' = cs) := by
  cases source with
  | relatedBy start chain => exact ⟨cs, h, rfl, fun _ => rfl⟩
  | instancesOf className =>
    have hask : ask (·.selectMany className) s = .done cs s₁ := h
    by_cases hall : cardinality = .many ∨ condition.isSome
    · refine ⟨cs, ?_, rfl, fun _ => rfl⟩
      show candidatesOf cardinality condition className s = _
      rw [candidatesOf, if_pos hall]
      exact hask
    · obtain ⟨hmany, hsame⟩ := ok_of_ask hask
      have hone : s.population.selectOne className = .ok cs.head? := by
        unfold Population.selectOne
        rw [hmany]
        rfl
      rw [hsame]
      refine ⟨cs.head?.toList, ?_, ?_, fun hsome => absurd (.inr hsome) hall⟩
      · show candidatesOf cardinality condition className s = _
        rw [candidatesOf, if_neg hall, bind_done (ask_ok hone)]
        rfl
      · cases cs <;> rfl

/-- The test of a candidate is made in a block of its own, so where it could be left, one was open before. -/
theorem open_of_satisfies {condition : Expression} {r : InstanceRef} {holds : Bool}
    (h : satisfies (eval host fuel) condition r s = .done holds s₁) (h₁ : s₁.scopes.Open) : s.scopes.Open := by
  obtain ⟨v, s₂, hblock, hpure⟩ := done_of_bind h
  cases hpure
  by_cases hstack : s.scopes.stack = []
  · unfold inBlock Scopes.enterBlock at hblock
    rw [hstack] at hblock
    cases hblock
  · have hleaves := (((disciplined_eval host fuel condition).withCandidate r).inBlock s hstack).leaves
    rw [hblock] at hleaves
    exact hleaves.scopes.open_of_open h₁

theorem open_of_filter {condition : Expression} {single : Bool}
    (h : filter (eval host fuel) condition single cs s = .done refs s₁) (h₁ : s₁.scopes.Open) :
    s.scopes.Open := by
  induction cs generalizing s refs with
  | nil =>
    cases h
    exact h₁
  | cons r rest ih =>
    obtain ⟨holds, s₂, htest, hrest⟩ := done_of_bind h
    refine open_of_satisfies htest ?_
    cases holds with
    | false => exact ih hrest
    | true =>
      cases single with
      | true =>
        cases hrest
        exact h₁
      | false =>
        obtain ⟨others, s₃, hothers, hpure⟩ := done_of_bind hrest
        cases hpure
        exact ih hothers

/-- Looking for one candidate makes the same tests as looking for all, up to the first that succeeds. -/
theorem filter_single {condition : Expression}
    (h : filter (eval host fuel) condition false cs s = .done refs s₁) (h₁ : s₁.scopes.Open) :
    ∃ s₂, filter (eval host fuel) condition true cs s = .done (refs.take 1) s₂ ∧ s₂.scopes.Open := by
  induction cs generalizing s refs with
  | nil =>
    cases h
    exact ⟨_, rfl, h₁⟩
  | cons r rest ih =>
    obtain ⟨holds, s₂, htest, hrest⟩ := done_of_bind h
    cases holds with
    | false =>
      obtain ⟨s₃, hfilter, h₃⟩ := ih hrest
      exact ⟨s₃, (bind_done htest).trans hfilter, h₃⟩
    | true =>
      obtain ⟨others, s₃, hothers, hpure⟩ := done_of_bind hrest
      cases hpure
      exact ⟨s₂, bind_done htest, open_of_filter hothers h₁⟩

theorem keep_single {cs' : List InstanceRef} (hsingle : cardinality ≠ .many)
    (h : keep (eval host fuel) .many condition cs s = .done refs s₁) (h₁ : s₁.scopes.Open)
    (hfirst : cs'.take 1 = cs.take 1) (hall : condition.isSome = true → cs' = cs) :
    ∃ s₂, keep (eval host fuel) cardinality condition cs' s = .done (refs.take 1) s₂ ∧ s₂.scopes.Open := by
  cases condition with
  | none =>
    cases h
    refine ⟨_, ?_, h₁⟩
    simp only [keep, hsingle, ne_eq, not_false_eq_true, if_true, hfirst]
    rfl
  | some condition =>
    obtain rfl := hall rfl
    have hfilter : keep (eval host fuel) cardinality (some condition) cs' s =
        filter (eval host fuel) condition true cs' s := by
      simp only [keep, hsingle, ne_eq, not_false_eq_true, decide_true]
    rw [hfilter]
    exact filter_single h h₁

theorem bindSelection_single (hsingle : cardinality ≠ .many) (name : String) (refs : List InstanceRef) :
    bindSelection name cardinality (refs.take 1) = install name ((refs.head?.map Value.ref).getD .null) := by
  cases cardinality with
  | many => exact absurd rfl hsingle
  | one | any => cases refs <;> rfl

end

/-- Wherever a selection of many succeeds and binds a set, the selection of one instance with the same operands
succeeds from the same state and binds the first element of the set, or null if there is none. This holds even if
testing the condition changes the state. -/
theorem select_single_head (host : Host) (fuel : Nat) (source : Source) (extent : Extent) (name : String)
    (condition : Option Expression) (cardinality : Cardinality) (hsingle : cardinality ≠ .many)
    (s s' : RunState) (found : List InstanceRef)
    (hmany : Succeeds host fuel (source.select extent .many name condition) s s')
    (hfound : s'.scopes.lookup name = some (.set found)) :
    ∃ s'', Succeeds host fuel (source.select extent cardinality name condition) s s'' ∧
      exec host (fuel + 1) (source.select extent cardinality name condition) s = .done .normal s'' ∧
      s''.scopes.lookup name = some ((found.head?.map Value.ref).getD .null) := by
  obtain ⟨cs, s₁, refs, s₂, hcs, hkeep, hbind⟩ := succeeds_select_iff.mp hmany
  obtain ⟨t, ht, rfl⟩ := install_done hbind
  obtain rfl : refs = found := by
    have hlookup := Scopes.lookup_install ht name
    rw [if_pos rfl, hfound] at hlookup
    cases hlookup
    rfl
  obtain ⟨cs', hcs', hfirst, hall⟩ := candidates_single hcs cardinality
  obtain ⟨s₃, hkeep', hopen⟩ := keep_single hsingle hkeep (Scopes.open_of_install ht) hfirst hall
  obtain ⟨t', ht', -⟩ := Scopes.install_extends hopen name ((refs.head?.map Value.ref).getD .null)
  have hbind' : bindSelection name cardinality (refs.take 1) s₃ = .done () { s₃ with scopes := t' } := by
    rw [bindSelection_single hsingle]
    exact install_of_ok ht'
  have hone : Succeeds host fuel (source.select extent cardinality name condition) s { s₃ with scopes := t' } :=
    succeeds_select_iff.mpr ⟨cs', s₁, _, s₃, hcs', hkeep', hbind'⟩
  refine ⟨_, hone, hone.exec_eq, ?_⟩
  rw [Scopes.lookup_install ht' name, if_pos rfl]

/-- `select any x from instances of Person where selected == p` binds the second person, on whom the test succeeds. -/
theorem select_single_head_staff :
    let isP : Expression := .binary .nowhere (.selected .nowhere) .equal (.var .nowhere "p")
    (∃ s', Succeeds (.bare .off) 2 ((Source.instancesOf "Person").select .nowhere .many "x" (some isP)) staff s' ∧
      s'.scopes.lookup "x" = some (.set [⟨"Person", 4⟩])) ∧
    ∃ s'', exec (.bare .off) 3 ((Source.instancesOf "Person").select .nowhere .any "x" (some isP)) staff =
        .done .normal s'' ∧
      s''.scopes.lookup "x" = some (.ref ⟨"Person", 4⟩) := by
  intro isP
  have hmany : Succeeds (.bare .off) 2 ((Source.instancesOf "Person").select .nowhere .many "x" (some isP)) staff
      { staff with scopes := ⟨[[[("p", .ref ⟨"Person", 4⟩), ("ps", .set [⟨"Person", 2⟩, ⟨"Person", 4⟩]),
        ("x", .set [⟨"Person", 4⟩])]]]⟩ } := rfl
  obtain ⟨s'', -, hexec, hlookup⟩ := select_single_head (.bare .off) 2 (.instancesOf "Person") .nowhere "x"
    (some isP) .any (by decide) staff _ [⟨"Person", 4⟩] hmany rfl
  exact ⟨⟨_, hmany, rfl⟩, s'', hexec, hlookup⟩

end Run

end ObjectAction
