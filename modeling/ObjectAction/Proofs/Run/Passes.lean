/-
The passes of a `for each`. The loop goes over the instances that its variable held when it was entered: pass by pass
its item is bound to the next of them, and there is a pass for each unless one of the passes leaves the loop. In every
pass, `first` and `last` say which one it is, and behind the loop they speak of the loop around it again.

Main statement: `forEach_passes`. That what happens in a pass does not reach the cursor of its loop is `apart_run`.
-/
import ObjectAction.Proofs.Run.Cursor
import ObjectAction.Proofs.Scope.Lookup

namespace ObjectAction

/-- The state inside a loop that is entered. -/
def RunState.entering (s : RunState) (c : LoopCursor) : RunState :=
  { s with activation := { s.activation with loops := c :: s.activation.loops } }

/-- Whether a pass that ends so leaves its loop. -/
def Signal.leavesLoop : Signal → Bool
  | normal | continued => false
  | broke | returned _ | stopped => true

namespace Outcome

/-- The state in which a loop goes on after a pass that ends so, unless the pass leaves the loop. -/
def next? : Outcome Signal → Option RunState
  | done signal s => if signal.leavesLoop then none else some s
  | _ => none

/-- How a loop ends whose last pass ends so. -/
def ofLoop : Outcome Signal → Outcome Signal
  | done .continued s | done .broke s => done .normal s
  | o => o

end Outcome

namespace Run

open Fault (isRecoverable never)

/-! ## Passes -/

/-- A pass of a loop: the state in which its body begins, and how the body ends. -/
structure Pass where
  began : RunState
  ended : Outcome Signal

/-- Begins the pass with that index, over an instance. -/
def beginPass (item : String) (index : Nat) (r : InstanceRef) : Run Unit := do
  setPass index
  install item (.ref r)

/-- The passes of a loop over instances, from the one with that index on. -/
def passesFrom (item : String) (body : Run Signal) : Nat → List InstanceRef → RunState → List Pass
  | _, [], _ => []
  | index, r :: rest, s =>
    match beginPass item index r s with
    | .done () began =>
      ⟨began, body began⟩ :: ((body began).next?.map (passesFrom item body (index + 1) rest)).getD []
    | _ => []

/-- The passes of a `for each` that is entered in a state where its variable holds these instances. -/
def passesOf (host : Host) (fuel : Nat) (item set : String) (b : Block) (refs : List InstanceRef)
    (s : RunState) : List Pass :=
  passesFrom item (execBlock (exec host fuel) b) 0 refs (s.entering ⟨set, 0, refs.length⟩)

/-- How a loop ends that begins in a state and has these passes. -/
def endOf (s : RunState) (ps : List Pass) : Outcome Signal :=
  match ps.getLast? with
  | none => .done .normal s
  | some p => p.ended.ofLoop

/-- In this state, `first` and `last` of the variable say that a loop over it is in pass `k` of `n`. -/
def TellsPass (set : String) (k n : Nat) (s : RunState) : Prop :=
  ∀ host fuel e e',
    eval host (fuel + 1) (.unary e .first (.var e' set)) s = .done (.boolean (decide (k = 0))) s ∧
    eval host (fuel + 1) (.unary e .last (.var e' set)) s = .done (.boolean (decide (k + 1 = n))) s

/-- In this state, `first` and `last` of the variable fail for want of a loop. -/
def TellsNoLoop (set : String) (s : RunState) : Prop :=
  ∀ host fuel e e',
    eval host (fuel + 1) (.unary e .first (.var e' set)) s = .failed (.noLoop "first" set) s ∧
    eval host (fuel + 1) (.unary e .last (.var e' set)) s = .failed (.noLoop "last" set) s

variable {α : Type} {set item : String} {k n index : Nat} {s s' : RunState} {r : InstanceRef}
  {refs rest : List InstanceRef} {body : Run Signal}

/-! ## What is told -/

/-- What a question about the innermost loop over a variable is answered with. -/
def answer (operator set : String) (test : LoopCursor → Bool) (s : RunState) : Outcome Value :=
  match s.cursor set with
  | some c => .done (.boolean (test c)) s
  | none => .failed (.noLoop operator set) s

theorem recover_loopPosition (operator set : String) (test : LoopCursor → Bool) (e : Extent) (s : RunState)
    (rest : Fault → Run Value) :
    recover (loopPosition operator test (.var e set)) isPopulationFault rest s = answer operator set test s := by
  have hasked : loopPosition operator test (.var e set) s = answer operator set test s := by
    show (match s.cursor set with
      | some c => (Pure.pure (.boolean (test c)) : Run Value)
      | none => fail (.noLoop operator set)) s = _
    unfold answer
    cases s.cursor set with
    | some c => rfl
    | none => rfl
  unfold recover
  rw [hasked]
  unfold answer
  -- for want of a loop there is no fault of the population
  cases s.cursor set with
  | some c => rfl
  | none => rfl

theorem eval_first (host : Host) (fuel : Nat) (e e' : Extent) (set : String) (s : RunState) :
    eval host (fuel + 1) (.unary e .first (.var e' set)) s = answer "first" set (·.index = 0) s :=
  recover_loopPosition "first" set _ e' s _

theorem eval_last (host : Host) (fuel : Nat) (e e' : Extent) (set : String) (s : RunState) :
    eval host (fuel + 1) (.unary e .last (.var e' set)) s =
      answer "last" set (fun c => c.index + 1 = c.length) s :=
  recover_loopPosition "last" set _ e' s _

theorem tellsPass_of_cursor (h : s.cursor set = some ⟨set, k, n⟩) : TellsPass set k n s := by
  intro host fuel e e'
  rw [eval_first, eval_last]
  unfold answer
  rw [h]
  exact ⟨rfl, rfl⟩

theorem tellsNoLoop_of_cursor (h : s.cursor set = none) : TellsNoLoop set s := by
  intro host fuel e e'
  rw [eval_first, eval_last]
  unfold answer
  rw [h]
  exact ⟨rfl, rfl⟩

/-- The answers depend on the innermost loop over the variable alone. -/
theorem answer_done {operator : String} {test : LoopCursor → Bool} {v : Value} (hc : s'.cursor set = s.cursor set)
    (h : answer operator set test s = .done v s) : answer operator set test s' = .done v s' := by
  unfold answer at *
  rw [hc]
  cases hs : s.cursor set with
  | some c =>
    rw [hs] at h
    cases h
    rfl
  | none =>
    rw [hs] at h
    cases h

theorem TellsPass.of_cursor (h : TellsPass set k n s) (hc : s'.cursor set = s.cursor set) : TellsPass set k n s' := by
  intro host fuel e e'
  obtain ⟨hfirst, hlast⟩ := h host fuel e e'
  rw [eval_first] at *
  rw [eval_last] at *
  exact ⟨answer_done hc hfirst, answer_done hc hlast⟩

theorem TellsNoLoop.cursor (h : TellsNoLoop set s) : s.cursor set = none := by
  have hfirst := (h (.bare .off) 0 .nowhere .nowhere).1
  rw [eval_first] at hfirst
  unfold answer at hfirst
  cases hc : s.cursor set with
  | some c =>
    rw [hc] at hfirst
    cases hfirst
  | none => rfl

/-- Wherever a step gets that is apart from the loop, it is the same loop that is asked about. -/
theorem Apart.reaches {x : Run α} {rx : Record x} (h : Apart set 0 rx) (hs' : rx.Reaches s s') :
    s'.cursor set = s.cursor set := by
  cases hs' with
  | start => rfl
  | later hmem => exact h.cursor s s' (beyond_zero s) hmem

/-! ## The passes are those of the loop -/

theorem passes_cons (item : String) (body : Run Signal) (index : Nat) (r : InstanceRef) (rest : List InstanceRef) :
    passes item body index (r :: rest) = (do
      beginPass item index r
      afterPass (← body) (passes item body (index + 1) rest)) := rfl

/-- A block is open, and the innermost loop is one over the variable, of `n` passes. -/
structure InLoop (set : String) (n : Nat) (s : RunState) : Prop where
  isOpen : s.scopes.Open
  loop : ∃ index outer, s.activation.loops = ⟨set, index, n⟩ :: outer

/-- A pass begins: its item is bound, and the loop is told where it is. -/
structure Begins (set item : String) (n index : Nat) (r : InstanceRef) (s : RunState) : Prop where
  inside : InLoop set n s
  bound : s.scopes.lookup item = some (.ref r)
  cursor : s.cursor set = some ⟨set, index, n⟩

theorem beginPass_begins (h : InLoop set n s) (item : String) (index : Nat) (r : InstanceRef) :
    ∃ began, beginPass item index r s = .done () began ∧ Begins set item n index r began := by
  obtain ⟨hopen, i, outer, hloops⟩ := h
  have hset : setPass index s =
      .done () { s with activation := { s.activation with loops := ⟨set, index, n⟩ :: outer } } := by
    simp only [setPass, Run.modify, hloops]
  obtain ⟨t, ht, hextends⟩ := Scopes.install_extends hopen item (.ref r)
  refine ⟨{ s with scopes := t, activation := { s.activation with loops := ⟨set, index, n⟩ :: outer } }, ?_, ?_⟩
  · unfold beginPass
    rw [bind_done hset]
    exact changeScopes_ok (congrArg (Except.map ((), ·)) ht)
  · refine ⟨⟨hextends.open, index, outer, rfl⟩, ?_, ?_⟩
    · rw [Scopes.lookup_install ht, if_pos rfl]
    · exact List.find?_cons_of_pos (by simp)

/-- What a body leaves is inside of the same loop. -/
theorem InLoop.of_extends (h : InLoop set n s) (hs : s.Extends 0 s') : InLoop set n s' := by
  obtain ⟨i, outer, hloops⟩ := h.loop
  exact ⟨hs.scopes.open, i, outer, hs.activation.loops.trans hloops⟩

theorem eq_done_of_next? {o : Outcome Signal} (h : o.next? = some s') :
    o = .done .normal s' ∨ o = .done .continued s' := by
  cases o with
  | done signal s₁ =>
    cases signal with
    | normal =>
      cases h
      exact .inl rfl
    | continued =>
      cases h
      exact .inr rfl
    | broke | returned | stopped => cases h
  | failed f s₁ => cases h
  | exhausted => cases h

theorem leavesLoop_of_next? {o : Outcome Signal} (h : o.next? = some s') :
    ∃ signal s', o = .done signal s' ∧ signal.leavesLoop = false := by
  rcases eq_done_of_next? h with rfl | rfl
  · exact ⟨_, _, rfl, rfl⟩
  · exact ⟨_, _, rfl, rfl⟩

/-- A pass that does not fail, and after which the loop does not go on. -/
theorem leavesLoop_of_next?_none {P : RunState → Prop} {o : Outcome Signal} (ho : o.Leaves never P)
    (h : o.next? = none) : o = .exhausted ∨ ∃ signal s', o = .done signal s' ∧ signal.leavesLoop = true := by
  cases o with
  | done signal s' =>
    refine .inr ⟨signal, s', rfl, ?_⟩
    cases signal with
    | normal | continued => cases h
    | broke | returned | stopped => rfl
  | failed f s' => cases ho.1
  | exhausted => exact .inl rfl

/-- Where a loop goes on after a pass, it ends as if it began there. -/
theorem endOf_cons {p : Pass} (h : p.ended.next? = some s') (s : RunState) (ps : List Pass) :
    endOf s (p :: ps) = endOf s' ps := by
  cases ps with
  | nil =>
    show p.ended.ofLoop = .done .normal s'
    rcases eq_done_of_next? h with hended | hended
    · rw [hended]
      rfl
    · rw [hended]
      rfl
  | cons q ps =>
    unfold endOf
    rw [List.getLast?_cons_cons, List.getLast?_cons]

theorem passesFrom_cons {began : RunState} (h : beginPass item index r s = .done () began) (body : Run Signal)
    (rest : List InstanceRef) :
    passesFrom item body index (r :: rest) s = ⟨began, body began⟩ ::
      ((body began).next?.map (passesFrom item body (index + 1) rest)).getD [] := by
  simp only [passesFrom, h]

/-- Inside of the loop, a body does not fail and leaves a state inside of the loop. -/
def StaysInLoop (set : String) (n : Nat) (body : Run Signal) : Prop :=
  ∀ s, InLoop set n s → (body s).Leaves never (InLoop set n)

theorem StaysInLoop.next? (hbody : StaysInLoop set n body) (hs : InLoop set n s) (h : (body s).next? = some s') :
    InLoop set n s' := by
  have hleaves := hbody s hs
  rcases eq_done_of_next? h with hended | hended
  · rw [hended] at hleaves
    exact hleaves
  · rw [hended] at hleaves
    exact hleaves

/-- After a pass, a loop goes on from the state that the pass leaves, or ends with it. -/
theorem bind_afterPass (body rest : Run Signal) (s : RunState) :
    (body >>= fun signal => afterPass signal rest) s =
      match (body s).next? with
      | some s' => rest s'
      | none => (body s).ofLoop := by
  show Run.bind body _ s = _
  unfold Run.bind
  cases body s with
  | done signal s' =>
    cases signal with
    | normal | continued | broke | returned | stopped => rfl
  | failed f s' => rfl
  | exhausted => rfl

/-- A loop ends as its last pass makes it end. -/
theorem passes_eq_endOf (hbody : StaysInLoop set n body) (hs : InLoop set n s) (item : String) (index : Nat)
    (refs : List InstanceRef) :
    passes item body index refs s = endOf s (passesFrom item body index refs s) := by
  induction refs generalizing s index with
  | nil => rfl
  | cons r rest ih =>
    obtain ⟨began, hbegan, hbegins⟩ := beginPass_begins hs item index r
    rw [passes_cons, bind_done hbegan, passesFrom_cons hbegan, bind_afterPass]
    cases hnext : (body began).next? with
    | some s' =>
      rw [endOf_cons hnext]
      exact ih (hbody.next? hbegins.inside hnext) (index + 1)
    | none => rfl

/-! ## What is true of every pass -/

theorem passesFrom_begins (hbody : StaysInLoop set n body) (hs : InLoop set n s) {i : Nat} {p : Pass}
    (hp : (passesFrom item body index refs s)[i]? = some p) :
    p.ended = body p.began ∧ ∃ r, refs[i]? = some r ∧ Begins set item n (index + i) r p.began := by
  induction refs generalizing s index i with
  | nil => cases hp
  | cons r rest ih =>
    obtain ⟨began, hbegan, hbegins⟩ := beginPass_begins hs item index r
    rw [passesFrom_cons hbegan] at hp
    cases i with
    | zero =>
      cases hp
      exact ⟨rfl, r, rfl, hbegins⟩
    | succ i =>
      rw [List.getElem?_cons_succ] at hp
      cases hnext : (body began).next? with
      | some s' =>
        rw [hnext] at hp
        obtain ⟨hended, r', hr', hbegins'⟩ := ih (hbody.next? hbegins.inside hnext) hp
        refine ⟨hended, r', hr', ?_⟩
        rw [← Nat.add_assoc, Nat.add_right_comm]
        exact hbegins'
      | none =>
        rw [hnext] at hp
        cases hp

/-- Every pass but the last goes on to the next one, and there is one for every instance unless the last leaves. -/
theorem passesFrom_chain (hbody : StaysInLoop set n body) (hs : InLoop set n s) (item : String) (index : Nat)
    (refs : List InstanceRef) :
    (∀ p ∈ (passesFrom item body index refs s).dropLast, ∃ s', p.ended.next? = some s') ∧
    ((passesFrom item body index refs s).length = refs.length ∨
      ∃ p, (passesFrom item body index refs s).getLast? = some p ∧ p.ended.next? = none) := by
  induction refs generalizing s index with
  | nil => exact ⟨by simp [passesFrom], .inl rfl⟩
  | cons r rest ih =>
    obtain ⟨began, hbegan, hbegins⟩ := beginPass_begins hs item index r
    rw [passesFrom_cons hbegan]
    cases hnext : (body began).next? with
    | none => exact ⟨by simp, .inr ⟨_, rfl, hnext⟩⟩
    | some s' =>
      obtain ⟨hgo, hall⟩ := ih (hbody.next? hbegins.inside hnext) (index + 1)
      rw [Option.map_some, Option.getD_some]
      cases hps : passesFrom item body (index + 1) rest s' with
      | nil =>
        rw [hps] at hall
        refine ⟨by simp, .inl ?_⟩
        rcases hall with hlength | ⟨p, hp, -⟩
        · exact congrArg Nat.succ hlength
        · cases hp
      | cons q ps =>
        rw [hps] at hgo hall
        refine ⟨?_, ?_⟩
        · rw [List.dropLast_cons_cons]
          exact List.forall_mem_cons.mpr ⟨⟨s', hnext⟩, hgo⟩
        · rw [List.getLast?_cons_cons]
          rcases hall with hlength | hleaves
          · exact .inl (congrArg Nat.succ hlength)
          · exact .inr hleaves

/-! ## The loop as a statement -/

theorem Outcome.Leaves.ofLoop {F : Fault → Bool} {P : RunState → Prop} {o : Outcome Signal} (h : o.Leaves F P) :
    o.ofLoop.Leaves F P := by
  cases o with
  | done signal s =>
    cases signal with
    | normal | continued | broke | returned | stopped => exact h
  | failed f s => exact h
  | exhausted => exact h

theorem passes_inLoop (hbody : StaysInLoop set n body) (hs : InLoop set n s) (item : String) (index : Nat)
    (refs : List InstanceRef) : (passes item body index refs s).Leaves never (InLoop set n) := by
  induction refs generalizing s index with
  | nil => exact hs
  | cons r rest ih =>
    obtain ⟨began, hbegan, hbegins⟩ := beginPass_begins hs item index r
    rw [passes_cons, bind_done hbegan, bind_afterPass]
    cases hnext : (body began).next? with
    | some s' => exact ih (hbody.next? hbegins.inside hnext) (index + 1)
    | none => exact Outcome.Leaves.ofLoop (hbody began hbegins.inside)

theorem staysInLoop_execBlock (host : Host) (fuel : Nat) (b : Block) (set : String) (n : Nat) :
    StaysInLoop set n (execBlock (exec host fuel) b) := by
  intro s hs
  have hleaves := (disciplined_execBlock (disciplined_exec host fuel) b s hs.isOpen).leaves
  exact hleaves.mono fun s' hextends => hs.of_extends hextends

theorem inLoop_entering (hs : s.scopes.Open) (set : String) (n : Nat) : InLoop set n (s.entering ⟨set, 0, n⟩) :=
  ⟨hs, 0, s.activation.loops, rfl⟩

theorem readVariable_of_lookup {name : String} {v : Value} (h : s.scopes.lookup name = some v) :
    readVariable name s = .done v s := by
  show ask (resolveName s.scopes · name) s = _
  apply ask_ok
  unfold resolveName
  rw [h]

/-- The statement is the passes over what its variable holds, inside of its loop. -/
theorem exec_forEach {v : Value} (hs : s.scopes.Open) (hv : s.scopes.lookup set = some v)
    (hrefs : v.instances? = some refs) (host : Host) (fuel : Nat) (extent : Extent) (item : String)
    (b : Block) :
    exec host (fuel + 1) (.forEach extent item set b) s =
      withLoop ⟨set, 0, refs.length⟩ (passes item (execBlock (exec host fuel) b) 0 refs) s := by
  have hloop : forEach item set (execBlock (exec host fuel) b) s =
      withLoop ⟨set, 0, refs.length⟩ (passes item (execBlock (exec host fuel) b) 0 refs) s := by
    have hexpect : expectInstances "instance set" v s = .done refs s := by
      unfold expectInstances
      rw [hrefs]
      rfl
    unfold forEach
    rw [bind_done (readVariable_of_lookup hv), bind_done hexpect]
  show recover (forEach item set _) isRecoverable _ s = _
  unfold recover
  rw [hloop]
  -- no pass fails, so there is nothing to recover from
  have hinside := passes_inLoop (staysInLoop_execBlock host fuel b set refs.length)
    (inLoop_entering hs set refs.length) item 0 refs
  unfold withLoop between
  unfold RunState.entering at hinside
  cases hpasses : passes item (execBlock (exec host fuel) b) 0 refs
      { s with activation := { s.activation with loops := ⟨set, 0, refs.length⟩ :: s.activation.loops } } with
  | done signal s' => rfl
  | failed f s' =>
    rw [hpasses] at hinside
    cases hinside.1
  | exhausted => rfl

/-- A `for each` over a variable that holds instances when it is entered has its passes one by one: each begins with
the item bound to the next of the instances, at every point of it `first` and `last` say which pass it is, and there
are as many as instances unless one leaves the loop. Behind the loop they say what they said before it, and in a body
they fail wherever no loop over the variable is around. -/
theorem forEach_passes (host : Host) (fuel : Nat) (origin : Origin) (set : String) :
    (∀ extent item b s v refs, s.scopes.Open → s.scopes.lookup set = some v → v.instances? = some refs →
      let ps := passesOf host fuel item set b refs s
      exec host (fuel + 1) (.forEach extent item set b) s =
        withLoop ⟨set, 0, refs.length⟩ (fun inside => endOf inside ps) s ∧
      (∀ k p, ps[k]? = some p →
        p.ended = execBlock (exec host fuel) b p.began ∧
        (∃ r, refs[k]? = some r ∧ p.began.scopes.lookup item = some (.ref r)) ∧
        ∀ s₁, (Record.execBlock (ownExec host set fuel origin) b).Reaches p.began s₁ →
          TellsPass set k refs.length s₁) ∧
      (∀ p ∈ ps.dropLast, ∃ signal s', p.ended = .done signal s' ∧ signal.leavesLoop = false) ∧
      (ps.length = refs.length ∨ ∃ p, ps.getLast? = some p ∧
        (p.ended = .exhausted ∨ ∃ signal s', p.ended = .done signal s' ∧ signal.leavesLoop = true))) ∧
    (∀ extent item b s, s.scopes.Open →
      (exec host (fuel + 1) (.forEach extent item set b) s).Leaves never fun s' =>
        s'.activation.loops = s.activation.loops ∧ ∀ name,
          (∀ k n, TellsPass name k n s → TellsPass name k n s') ∧ (TellsNoLoop name s → TellsNoLoop name s')) ∧
    ∀ (a : Activation) (b : Body) (s s₁ : RunState), a.loops = [] →
      (Record.execBody (ownExec host set fuel origin) b).Reaches { s with activation := a } s₁ →
        TellsNoLoop set s₁ := by
  have hapart := fun st => (apart_run (S := set) host fuel origin).2 st
  refine ⟨?_, ?_, ?_⟩
  · intro extent item b s v refs hs hv hrefs ps
    have hbody := staysInLoop_execBlock host fuel b set refs.length
    have hinside := inLoop_entering hs set refs.length
    obtain ⟨hgo, hall⟩ := passesFrom_chain hbody hinside item 0 refs
    refine ⟨?_, ?_, ?_, ?_⟩
    · have hpasses := passes_eq_endOf hbody hinside item 0 refs
      rw [exec_forEach hs hv hrefs]
      unfold withLoop between
      unfold RunState.entering at hpasses
      rw [hpasses]
      rfl
    · intro k p hp
      obtain ⟨hended, r, hr, hbegins⟩ := passesFrom_begins hbody hinside hp
      refine ⟨hended, ⟨r, hr, hbegins.bound⟩, fun s₁ hs₁ => ?_⟩
      have hcursor := (apart_execBlock hapart b).reaches hs₁
      rw [hbegins.cursor, Nat.zero_add] at hcursor
      exact tellsPass_of_cursor hcursor
    · intro p hp
      obtain ⟨s', hnext⟩ := hgo p hp
      exact leavesLoop_of_next? hnext
    · rcases hall with hlength | ⟨p, hp, hnext⟩
      · exact .inl hlength
      · -- the last pass is one of them, and so it does not fail
        obtain ⟨k, hk⟩ := List.mem_iff_getElem?.mp (List.mem_of_getLast? hp)
        obtain ⟨hended, r, hr, hbegins⟩ := passesFrom_begins hbody hinside hk
        have hleaves := hbody p.began hbegins.inside
        rw [← hended] at hleaves
        exact .inr ⟨p, hp, leavesLoop_of_next?_none hleaves hnext⟩
  · intro extent item b s hs
    have hleaves := (disciplined_exec host (fuel + 1) (.forEach extent item set b) s hs).leaves
    refine hleaves.mono fun s' hextends => ?_
    have hloops : s'.activation.loops = s.activation.loops := hextends.activation.loops
    refine ⟨hloops, fun name => ?_⟩
    have hcursor : s'.cursor name = s.cursor name := by
      unfold RunState.cursor
      rw [hloops]
    exact ⟨fun k n h => h.of_cursor hcursor, fun h => tellsNoLoop_of_cursor (hcursor.trans h.cursor)⟩
  · intro a b s s₁ ha hs₁
    apply tellsNoLoop_of_cursor
    rw [(apart_execBody hapart b).reaches hs₁]
    show a.loops.find? _ = none
    rw [ha]
    rfl

/-- `for each x in xs xs = 5; x = 6; break; end for; continue;` -/
def restlessBlock : Block :=
  .mk .nowhere [
    .forEach .nowhere "x" "xs" (.mk .nowhere [
      .assign .nowhere (.var .nowhere "xs") (.integer .nowhere 5),
      .assign .nowhere (.var .nowhere "x") (.integer .nowhere 6),
      .breakLoop .nowhere]),
    .continueLoop .nowhere]

def twoInstances : List InstanceRef := [⟨"Dog", 1⟩, ⟨"Dog", 2⟩]

/-- A state of a body whose variables are `x` and `xs`, in these loops. -/
def sampleState (x xs : Value) (loops : List LoopCursor) : RunState :=
  ⟨.initial, ⟨[[[("x", x), ("xs", xs)]]]⟩, { Activation.start "f" none [] with loops := loops }, #[]⟩

def firstPass : RunState := sampleState (.ref ⟨"Dog", 1⟩) (.set twoInstances) [⟨"xs", 0, 2⟩]

def secondPass : RunState := sampleState (.ref ⟨"Dog", 2⟩) (.integer 5) [⟨"xs", 1, 2⟩]

/-- There is a second pass, although the first one writes `xs` and the item in a loop over `xs` of its own. -/
theorem passesOf_restlessBlock :
    passesOf (.bare .off) 4 "x" "xs" restlessBlock twoInstances (sampleState .null (.set twoInstances) []) =
      [⟨firstPass, execBlock (exec (.bare .off) 4) restlessBlock firstPass⟩,
        ⟨secondPass, execBlock (exec (.bare .off) 4) restlessBlock secondPass⟩] := by
  have hfirst : beginPass "x" 0 ⟨"Dog", 1⟩ (sampleState .null (.set twoInstances) [⟨"xs", 0, 2⟩]) =
      .done () firstPass := rfl
  have hbody : execBlock (exec (.bare .off) 4) restlessBlock firstPass =
      .done .continued (sampleState (.integer 6) (.integer 5) [⟨"xs", 0, 2⟩]) := by rfl
  have hsecond : beginPass "x" 1 ⟨"Dog", 2⟩ (sampleState (.integer 6) (.integer 5) [⟨"xs", 0, 2⟩]) =
      .done () secondPass := rfl
  refine (passesFrom_cons hfirst _ _).trans ?_
  rw [hbody]
  refine congrArg (List.cons _) ((passesFrom_cons hsecond _ _).trans ?_)
  cases (execBlock (exec (.bare .off) 4) restlessBlock secondPass).next? with
  | some s' => rfl
  | none => rfl

/-- A loop over `xs` with that block has both its passes, and where the loop inside of it is left, the first pass goes
on as the first. -/
theorem forEach_passes_restlessBlock :
    let s := sampleState .null (.set twoInstances) []
    let origin : Origin := ⟨"f", ⟨.nowhere, restlessBlock⟩⟩
    s.scopes.Open ∧ TellsNoLoop "xs" s ∧
    ∃ p q, passesOf (.bare .off) 4 "x" "xs" restlessBlock twoInstances s = [p, q] ∧
      q.began.scopes.lookup "xs" = some (.integer 5) ∧ q.began.scopes.lookup "x" = some (.ref ⟨"Dog", 2⟩) ∧
      ∃ s₁, (Record.execBlock (ownExec (.bare .off) "xs" 4 origin) restlessBlock).Reaches p.began s₁ ∧
        s₁.scopes.lookup "x" = some (.integer 6) ∧ TellsPass "xs" 0 2 s₁ := by
  intro s origin
  have hopen : s.scopes.Open := ⟨_, _, _, rfl⟩
  obtain ⟨hloop, -, hbody⟩ := forEach_passes (.bare .off) 4 origin "xs"
  have hnone := hbody s.activation origin.body s s rfl .start
  obtain ⟨-, hpass, -, -⟩ := hloop .nowhere "x" restlessBlock s _ twoInstances hopen rfl rfl
  rw [passesOf_restlessBlock] at hpass ⊢
  obtain ⟨-, -, htells⟩ := hpass 0 _ rfl
  obtain ⟨-, ⟨r, hr, hbound⟩, -⟩ := hpass 1 _ rfl
  cases hr
  -- the state that the inner loop leaves, before the next statement
  have hpoint : (Record.execBlock (ownExec (.bare .off) "xs" 4 origin) restlessBlock).Reaches firstPass
      { firstPass with scopes := ⟨[[[], [("x", .integer 6), ("xs", .integer 5)]]]⟩ } :=
    .later (List.mem_of_getElem? (i := 2) (by rfl))
  exact ⟨hopen, hnone, _, _, rfl, rfl, hbound, _, hpoint, rfl, htells _ hpoint⟩

end Run

end ObjectAction
