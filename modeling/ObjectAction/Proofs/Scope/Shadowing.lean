/-
Histories of variables: scopes and blocks are entered and left, and names are bound and written, in any order,
whether a step succeeds or fails. A name that is bound is found and written wherever it is bound, so that no block
binds it again.

Main statement: `bound_once_throughout`. A scope binds a name once, what it gives back when it is left is what could
be looked up in it, and what happens inside a scope does not reach those around it.
-/
import ObjectAction.Proofs.Scope
import ObjectAction.Proofs.Table

namespace ObjectAction

namespace Scopes

/-! ## Histories -/

/-- A step on variables. -/
inductive Operation where
  | enterScope
  | leaveScope
  | enterBlock
  | leaveBlock
  | install (name : String) (v : Value)
  /-- Asks for the binding of a name, which may bind the default, and writes values through it one after another. -/
  | slot (name : String) (default : Value) (writes : List Value)

/-- The variables after a step, which are those before it if the step fails. -/
def orUnchanged (t : Scopes) : Except ScopeError Scopes → Scopes
  | .ok t' => t'
  | .error _ => t

def after (t : Scopes) : Operation → Scopes
  | .enterScope => t.enterScope
  | .leaveScope => t.orUnchanged (t.leaveScope.map Prod.snd)
  | .enterBlock => t.orUnchanged t.enterBlock
  | .leaveBlock => t.orUnchanged (t.leaveBlock.map Prod.snd)
  | .install name v => t.orUnchanged (t.install name v)
  | .slot name default writes =>
    t.orUnchanged ((t.slot name default).map fun r => writes.foldl (fun t v => t.write r.1 v) r.2)

def afterAll (t : Scopes) (ops : List Operation) : Scopes := ops.foldl after t

/-- An operation that neither enters nor leaves a scope. -/
def Operation.isLocal : Operation → Bool
  | .enterScope | .leaveScope => false
  | _ => true

/-- Whether every scope that is left was entered before, from `depth` entered scopes on, and all of them are left. -/
def Operation.balanced : Nat → List Operation → Bool
  | depth, [] => depth == 0
  | depth, .enterScope :: rest => balanced (depth + 1) rest
  | 0, .leaveScope :: _ => false
  | depth + 1, .leaveScope :: rest => balanced depth rest
  | depth, _ :: rest => balanced depth rest

end Scopes

/-! ## Writing through a slot -/

namespace Scope

variable {s : Scope} {name : String} {v : Value}

/-- To write the nearest binding is to write the block that the name is found in. -/
theorem overwrite?_eq (s : Scope) (name : String) (v : Value) :
    s.overwrite? name v = (s.depth? name).map fun i => s.modify i (Table.put · name v) := by
  induction s with
  | nil => rfl
  | cons b s ih =>
    unfold Scope.depth? at ih ⊢
    rw [overwrite?, List.findIdx?_cons]
    by_cases hb : Table.has b name = true
    · simp [hb]
    · simp [hb, ih, Function.comp_def]

theorem depth?_eq_none_iff : s.depth? name = none ↔ ∀ b ∈ s, Table.has b name = false := by
  unfold depth?
  simp [List.findIdx?_eq_none_iff]

/-- Where a name is found, nothing is entered for it. -/
theorem modify_putNew {i : Nat} (h : s.depth? name = some i) : s.modify i (Table.putNew · name v) = s := by
  obtain ⟨hlt, hbound, -⟩ := List.findIdx?_eq_some_iff_getElem.mp h
  apply List.ext_getElem?
  intro j
  rw [List.getElem?_modify]
  by_cases hj : i = j
  · subst hj
    rw [List.getElem?_eq_getElem hlt]
    simp [Table.putNew, hbound]
  · simp [hj]

end Scope

namespace Scopes

variable {t t' : Scopes} {name : String} {default v : Value} {x : Slot}

/-- Of two values that are written through one slot, the second is kept. -/
theorem write_write (t : Scopes) (x : Slot) (v w : Value) : (t.write x v).write x w = t.write x w := by
  obtain ⟨stack⟩ := t
  cases stack with
  | nil => rfl
  | cons s outer =>
    unfold write
    simp [List.modify_modify_eq, Function.comp_def, Table.put_put]

/-- To write through the slot of a name is to write the name. -/
theorem write_slot (h : t.slot name default = .ok (x, t')) (v : Value) : t.install name v = .ok (t'.write x v) := by
  obtain ⟨stack⟩ := t
  match stack, h with
  | (b :: bs) :: outer, h =>
    cases h
    simp only [install, write, Scope.overwrite?_eq]
    cases hd : Scope.depth? (b :: bs) name with
    | some i =>
      simp only [Option.map_some, Option.getD_some, Scope.modify_putNew hd]
    | none =>
      -- the innermost block binds the default first, which is then written over
      have hb := Scope.depth?_eq_none_iff.mp hd b List.mem_cons_self
      simp [Table.putNew, hb, Table.put_put]

/-- To ask for a slot binds the default, unless the name is bound. -/
theorem slot_cases (h : t.slot name default = .ok (x, t')) : t' = t ∨ t.install name default = .ok t' := by
  obtain ⟨stack⟩ := t
  match stack, h with
  | (b :: bs) :: outer, h =>
    cases h
    simp only [install, Scope.overwrite?_eq]
    cases hd : Scope.depth? (b :: bs) name with
    | some i =>
      left
      simp only [Option.getD_some, Scope.modify_putNew hd]
    | none =>
      right
      have hb := Scope.depth?_eq_none_iff.mp hd b List.mem_cons_self
      simp [Table.putNew, hb]

/-- The last value that is written through a slot is the one that is kept. -/
theorem write_all (t : Scopes) (x : Slot) (writes : List Value) (v : Value) :
    (writes ++ [v]).foldl (fun t v => t.write x v) t = t.write x v := by
  induction writes generalizing t with
  | nil => rfl
  | cons w writes ih =>
    rw [List.cons_append, List.foldl_cons, ih]
    exact write_write t x w v

/-! ## What an operation can do -/

/-- What an operation that neither enters nor leaves a scope can make of the variables. -/
inductive Change : Scopes → Scopes → Prop
  | none (t : Scopes) : Change t t
  | enterBlock (s : Scope) (outer : List Scope) : Change ⟨s :: outer⟩ ⟨([] :: s) :: outer⟩
  | leaveBlock (b : Bindings) (s : Scope) (outer : List Scope) : Change ⟨(b :: s) :: outer⟩ ⟨s :: outer⟩
  | install {t t' : Scopes} (name : String) (v : Value) (h : t.install name v = .ok t') : Change t t'

/-- To write through a slot that was asked for is nothing, or a write of its name. -/
theorem change_slot (h : t.slot name default = .ok (x, t')) (writes : List Value) :
    Change t (writes.foldl (fun t v => t.write x v) t') := by
  rcases writes.eq_nil_or_concat with rfl | ⟨earlier, v, rfl⟩
  · rcases slot_cases h with rfl | hinstall
    · exact .none t'
    · exact .install name default hinstall
  · -- only the last of the values is kept
    rw [List.concat_eq_append, write_all]
    exact .install name v (write_slot h v)

theorem change_after (t : Scopes) (op : Operation) (h : op.isLocal = true) : Change t (t.after op) := by
  obtain ⟨stack⟩ := t
  cases op with
  | enterScope => cases h
  | leaveScope => cases h
  | enterBlock =>
    cases stack with
    | nil => exact .none _
    | cons s outer => exact .enterBlock s outer
  | leaveBlock =>
    match stack with
    | [] => exact .none _
    | [] :: outer => exact .none _
    | (b :: s) :: outer => exact .leaveBlock b s outer
  | install name v =>
    simp only [after]
    cases hi : install ⟨stack⟩ name v with
    | error e => exact .none _
    | ok t' => exact .install name v hi
  | slot name default writes =>
    simp only [after]
    cases hs : slot ⟨stack⟩ name default with
    | error e => exact .none _
    | ok r => exact change_slot hs writes

/-- A write reaches the newest scope only. -/
theorem install_outer (h : t.install name v = .ok t') :
    t'.stack.tail = t.stack.tail ∧ t'.stack.length = t.stack.length := by
  obtain ⟨stack⟩ := t
  cases stack with
  | nil => cases h
  | cons s outer =>
    unfold install at h
    dsimp only at h
    split at h
    · cases h
      exact ⟨rfl, rfl⟩
    · cases h
    · cases h
      exact ⟨rfl, rfl⟩

theorem Change.outer (h : Change t t') :
    t'.stack.tail = t.stack.tail ∧ t'.stack.length = t.stack.length := by
  cases h with
  | none => exact ⟨rfl, rfl⟩
  | enterBlock s outer => exact ⟨rfl, rfl⟩
  | leaveBlock b s outer => exact ⟨rfl, rfl⟩
  | install name v h => exact install_outer h

end Scopes

/-! ## A name is bound once -/

namespace Scope

variable {s s' : Scope} {b : Bindings} {name : String} {v : Value}

/-- Every block is in order, and a name is bound in one block at most. -/
structure Unshadowed (s : Scope) : Prop where
  ascending : ∀ b ∈ s, Table.Ascending b
  once : ∀ name, s.countP (Table.has · name) ≤ 1

theorem SameNames.countP_eq (h : s.SameNames s') (name : String) :
    s'.countP (Table.has · name) = s.countP (Table.has · name) := by
  induction h with
  | nil => rfl
  | cons hb _ ih => rw [List.countP_cons, List.countP_cons, ih, hb name]

theorem ascending_overwrite? (h : ∀ b ∈ s, Table.Ascending b) (hs : s.overwrite? name v = some s') :
    ∀ b ∈ s', Table.Ascending b := by
  induction s generalizing s' with
  | nil => cases hs
  | cons b s ih =>
    obtain ⟨hb, hrest⟩ := List.forall_mem_cons.mp h
    unfold overwrite? at hs
    split at hs
    · cases hs
      exact List.forall_mem_cons.mpr ⟨hb.put name v, hrest⟩
    · obtain ⟨s₁, hs₁, rfl⟩ := Option.map_eq_some_iff.mp hs
      exact List.forall_mem_cons.mpr ⟨hb, ih hrest hs₁⟩

namespace Unshadowed

theorem nil : Unshadowed [] := by
  constructor
  · simp
  · simp

theorem enterBlock (h : s.Unshadowed) : Unshadowed ([] :: s) := by
  constructor
  · exact List.forall_mem_cons.mpr ⟨List.Pairwise.nil, h.ascending⟩
  · intro name
    rw [List.countP_cons_of_neg (by simp [Table.has, Table.value?])]
    exact h.once name

theorem leaveBlock (h : Unshadowed (b :: s)) : s.Unshadowed := by
  constructor
  · exact (List.forall_mem_cons.mp h.ascending).2
  · intro name
    exact ((List.sublist_cons_self b s).countP_le).trans (h.once name)

/-- A write over a binding binds nothing. -/
theorem overwrite (h : s.Unshadowed) (hs : s.overwrite? name v = some s') : s'.Unshadowed := by
  constructor
  · exact ascending_overwrite? h.ascending hs
  · intro other
    rw [(overwrite?_sameNames hs).countP_eq]
    exact h.once other

/-- A name is bound in the innermost block if no block binds it. -/
theorem bind (h : Unshadowed (b :: s)) (hs : overwrite? (b :: s) name v = none) :
    Unshadowed (Table.put b name v :: s) := by
  rw [overwrite?_eq, Option.map_eq_none_iff, depth?_eq_none_iff] at hs
  obtain ⟨hb, hrest⟩ := List.forall_mem_cons.mp hs
  constructor
  · obtain ⟨hhead, htail⟩ := List.forall_mem_cons.mp h.ascending
    exact List.forall_mem_cons.mpr ⟨hhead.put name v, htail⟩
  · intro other
    have honce := h.once other
    rw [List.countP_cons] at honce ⊢
    rw [Table.has_put]
    by_cases hn : name = other
    · -- this block is the only one that binds it
      subst hn
      have hzero : s.countP (Table.has · name) = 0 := by
        rw [List.countP_eq_zero]
        intro b' hb'
        simp [hrest b' hb']
      simp [hzero]
    · simpa [hn] using honce

/-- What a scope gives back under a name is the value that is found for it. -/
theorem value?_flatten (h : s.Unshadowed) (name : String) : Table.value? s.flatten name = s.value? name := by
  induction s with
  | nil => rfl
  | cons b s ih =>
    show Table.value? (Table.putAll (flatten s) b) name = _
    rw [Table.value?_putAll (h.ascending b List.mem_cons_self), ih h.leaveBlock]
    unfold Scope.value?
    rw [List.findSome?_cons]
    cases Table.value? b name with
    | none => rfl
    | some v => rfl

end Unshadowed

end Scope

/-! ## Throughout a history -/

namespace Scopes

variable {t t' : Scopes} {name : String} {v : Value}

/-- Every scope binds a name in one of its blocks at most. -/
def Unshadowed (t : Scopes) : Prop := ∀ s ∈ t.stack, s.Unshadowed

namespace Unshadowed

theorem install (h : t.Unshadowed) (ht : t.install name v = .ok t') : t'.Unshadowed := by
  obtain ⟨stack⟩ := t
  cases stack with
  | nil => cases ht
  | cons s outer =>
    obtain ⟨hs, houter⟩ := List.forall_mem_cons.mp h
    unfold Scopes.install at ht
    dsimp only at ht
    split at ht
    · rename_i s' hs'
      cases ht
      exact List.forall_mem_cons.mpr ⟨hs.overwrite hs', houter⟩
    · cases ht
    · rename_i b bs hnone
      cases ht
      exact List.forall_mem_cons.mpr ⟨hs.bind hnone, houter⟩

theorem change (h : t.Unshadowed) (hc : Change t t') : t'.Unshadowed := by
  cases hc with
  | none => exact h
  | enterBlock s outer =>
    obtain ⟨hs, houter⟩ := List.forall_mem_cons.mp h
    exact List.forall_mem_cons.mpr ⟨hs.enterBlock, houter⟩
  | leaveBlock b s outer =>
    obtain ⟨hs, houter⟩ := List.forall_mem_cons.mp h
    exact List.forall_mem_cons.mpr ⟨hs.leaveBlock, houter⟩
  | install name v ht => exact h.install ht

theorem after (h : t.Unshadowed) (op : Operation) : (t.after op).Unshadowed := by
  by_cases hlocal : op.isLocal = true
  · exact h.change (change_after t op hlocal)
  cases op with
  | enterScope => exact List.forall_mem_cons.mpr ⟨.nil, h⟩
  | leaveScope =>
    obtain ⟨stack⟩ := t
    cases stack with
    | nil => exact h
    | cons s outer => exact (List.forall_mem_cons.mp h).2
  | _ => exact absurd rfl hlocal

theorem afterAll (h : t.Unshadowed) (ops : List Operation) : (t.afterAll ops).Unshadowed := by
  induction ops generalizing t with
  | nil => exact h
  | cons op ops ih => exact ih (h.after op)

/-- The newest scope is left with what can be looked up in it. -/
theorem value?_leaveScope {bindings : Bindings} (h : t.Unshadowed) (ht : t.leaveScope = .ok (bindings, t'))
    (name : String) : Table.value? bindings name = t.lookup name := by
  obtain ⟨stack⟩ := t
  cases stack with
  | nil => cases ht
  | cons s outer =>
    cases ht
    exact (h s List.mem_cons_self).value?_flatten name

end Unshadowed

theorem Operation.balanced_local {op : Operation} (h : op.isLocal = true) (depth : Nat) (ops : List Operation) :
    balanced depth (op :: ops) = balanced depth ops := by
  cases op with
  | enterScope => cases h
  | leaveScope => cases h
  | _ => simp only [balanced]

/-- The scopes below the `depth` ones that are still to be left, and below the newest of the rest, are not reached. -/
theorem outer_afterAll {depth : Nat} {ops : List Operation} (hb : Operation.balanced depth ops = true)
    (ht : depth < t.stack.length) : ∃ s, (t.afterAll ops).stack = s :: t.stack.drop (depth + 1) := by
  induction ops generalizing t depth with
  | nil =>
    obtain rfl : depth = 0 := by simpa [Operation.balanced] using hb
    obtain ⟨s, outer, hstack⟩ := List.exists_cons_of_length_pos ht
    exact ⟨s, by rw [hstack]; exact hstack⟩
  | cons op ops ih =>
    by_cases hlocal : op.isLocal = true
    · rw [Operation.balanced_local hlocal] at hb
      obtain ⟨htail, hlength⟩ := (change_after t op hlocal).outer
      obtain ⟨s, hs⟩ := ih (t := t.after op) hb (by omega)
      exact ⟨s, by rw [← List.drop_tail, ← htail, List.drop_tail]; exact hs⟩
    cases op with
    | enterScope => exact ih (t := t.enterScope) hb (Nat.succ_lt_succ ht)
    | leaveScope =>
      cases depth with
      | zero => cases hb
      | succ depth =>
        obtain ⟨_ | ⟨s, outer⟩⟩ := t
        · cases ht
        · exact ih (t := ⟨outer⟩) hb (Nat.lt_of_succ_lt_succ ht)
    | _ => exact absurd rfl hlocal

/-- Throughout a history, every scope binds a name in one of its blocks at most. What a scope gives back when it is
left holds a value under a name exactly if the name was looked up with that value, and what happens inside a scope
that is entered, if it leaves what it enters, leaves every scope around it as it was. -/
theorem bound_once_throughout (ops : List Operation) :
    (∀ s ∈ (empty.afterAll ops).stack, ∀ name, s.countP (Table.has · name) ≤ 1) ∧
    (∀ bindings t', (empty.afterAll ops).leaveScope = .ok (bindings, t') →
      ∀ name v, Table.value? bindings name = some v ↔ (empty.afterAll ops).lookup name = some v) ∧
    ∀ inner, Operation.balanced 0 inner = true →
      ((empty.afterAll ops).enterScope.afterAll inner).stack.tail = (empty.afterAll ops).stack ∧
      ∃ bindings, ((empty.afterAll ops).enterScope.afterAll inner).leaveScope = .ok (bindings, empty.afterAll ops) := by
  have hempty : empty.Unshadowed := by simp [Unshadowed, empty]
  have hall := hempty.afterAll ops
  refine ⟨fun s hs => (hall s hs).once, ?_, ?_⟩
  · intro bindings t' ht name v
    rw [hall.value?_leaveScope ht]
  · intro inner hb
    obtain ⟨s, hs⟩ := outer_afterAll (t := (empty.afterAll ops).enterScope) hb (Nat.succ_pos _)
    refine ⟨?_, s.flatten, ?_⟩
    · rw [hs]
      rfl
    · unfold leaveScope
      rw [hs]
      rfl

/-- A name that is bound in a block is written from a block inside it, and another one from there through a slot,
before a step fails and a scope is entered and left. -/
def sampleHistory : List Operation :=
  [.leaveScope, .enterScope, .install "x" (.integer 1), .enterBlock, .install "x" (.integer 2), .enterBlock,
    .slot "x" .null [.integer 3, .integer 4], .slot "y" (.integer 5) [], .enterScope, .leaveBlock, .enterBlock,
    .install "x" (.integer 6), .leaveScope]

/-- Inside a scope, one more is entered and left, and the name of the sample is bound anew. -/
def sampleInside : List Operation :=
  [.enterBlock, .enterScope, .enterBlock, .install "x" (.integer 7), .leaveScope, .install "x" (.integer 8)]

theorem bound_once_throughout_sampleHistory :
    (∃ bindings t', (empty.afterAll sampleHistory).leaveScope = .ok (bindings, t') ∧
      Table.value? bindings "x" = some (.integer 4) ∧ (empty.afterAll sampleHistory).lookup "x" = some (.integer 4)) ∧
    (∀ s ∈ (empty.afterAll sampleHistory).stack, s.length = 2 ∧ s.countP (Table.has · "x") ≤ 1) ∧
    Operation.balanced 0 sampleInside = true ∧
    ((empty.afterAll sampleHistory).enterScope.afterAll sampleInside).lookup "x" = some (.integer 8) ∧
    ((empty.afterAll sampleHistory).enterScope.afterAll sampleInside).stack.tail =
      (empty.afterAll sampleHistory).stack := by
  obtain ⟨honce, hbindings, hinside⟩ := bound_once_throughout sampleHistory
  have hx : (empty.afterAll sampleHistory).lookup "x" = some (.integer 4) := by rfl
  have hbalanced : Operation.balanced 0 sampleInside = true := by rfl
  refine ⟨⟨_, _, rfl, (hbindings _ _ rfl "x" _).mpr hx, hx⟩, ?_, hbalanced, by rfl, (hinside _ hbalanced).1⟩
  intro s hs
  refine ⟨?_, honce s hs "x"⟩
  obtain rfl : s = _ := List.mem_singleton.mp hs
  rfl

end Scopes

end ObjectAction
