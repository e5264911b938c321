/-
What the operations on variables do to the names that the open blocks bind. A binding is made in the
innermost block only, every other write goes to a name that its block binds already, and leaving a
block or a scope gives back what was open before it was entered.
-/
import ObjectAction.Scope
import Mathlib.Tactic

namespace ObjectAction

/-! ## Names -/

theorem Table.has_putNew {α : Type} (t : Table α) (name : String) (v : α) :
    Table.has (Table.putNew t name v) name = true := by
  unfold Table.putNew
  split
  · assumption
  · rw [Table.has_put, decide_eq_true rfl, Bool.true_or]

theorem Table.has_putNew_of_has {α : Type} {t : Table α} {name other : String} {v : α}
    (h : Table.has t other = true) : Table.has (Table.putNew t name v) other = true := by
  unfold Table.putNew
  split
  · exact h
  · rw [Table.has_put, h, Bool.or_true]

/-- Two blocks bind the same names. -/
def Bindings.SameNames (b b' : Bindings) : Prop := ∀ name, Table.has b' name = Table.has b name

namespace Bindings.SameNames

theorem refl (b : Bindings) : SameNames b b := fun _ => rfl

theorem trans {b₁ b₂ b₃ : Bindings} (h₁ : SameNames b₁ b₂) (h₂ : SameNames b₂ b₃) : SameNames b₁ b₃ :=
  fun name => (h₂ name).trans (h₁ name)

/-- Writing a name that is bound binds no other. -/
theorem put {b : Bindings} {name : String} (h : Table.has b name = true) (v : Value) :
    SameNames b (Table.put b name v) := by
  intro other
  rw [Table.has_put]
  by_cases hn : name = other
  · rw [← hn, h, Bool.or_true]
  · rw [decide_eq_false hn, Bool.false_or]

end Bindings.SameNames

/-- Two scopes have as many blocks, and each block binds the same names as its counterpart. -/
def Scope.SameNames : Scope → Scope → Prop := List.Forall₂ Bindings.SameNames

namespace Scope.SameNames

theorem refl (s : Scope) : SameNames s s := List.forall₂_same.mpr fun b _ => .refl b

theorem trans {s₁ s₂ s₃ : Scope} (h₁ : SameNames s₁ s₂) (h₂ : SameNames s₂ s₃) : SameNames s₁ s₃ := by
  induction h₁ generalizing s₃ with
  | nil =>
    cases h₂
    exact .nil
  | cons hb _ ih =>
    cases h₂ with
    | cons hb' hrest => exact .cons (hb.trans hb') (ih hrest)

/-- A block may be replaced by one that binds the same names. -/
theorem modify {f : Bindings → Bindings} : ∀ (s : Scope) (i : Nat),
    (∀ b, s[i]? = some b → Bindings.SameNames b (f b)) → SameNames s (s.modify i f)
  | [], _, _ => by
    rw [List.modify_nil]
    exact .nil
  | b :: bs, 0, h => .cons (h b rfl) (refl bs)
  | b :: bs, i + 1, h => by
    rw [List.modify_succ_cons]
    exact .cons (.refl b) (modify bs i h)

end Scope.SameNames

theorem Scope.overwrite?_sameNames {name : String} {v : Value} : ∀ {s s' : Scope},
    s.overwrite? name v = some s' → s.SameNames s'
  | [], _, h => nomatch h
  | b :: bs, s', h => by
    unfold Scope.overwrite? at h
    split at h
    · rename_i hb
      cases h
      exact .cons (.put hb v) (SameNames.refl bs)
    · obtain ⟨bs', hbs, rfl⟩ := Option.map_eq_some_iff.mp h
      exact .cons (.refl b) (overwrite?_sameNames hbs)

namespace Scopes

/-! ## Relations between the variables before and after a step -/

/-- The newest scope has an open block. -/
def Open (t : Scopes) : Prop := ∃ b bs outer, t.stack = (b :: bs) :: outer

/-- The scopes below the newest one are the same, and the newest one has the same blocks, which bind the
same names; the innermost block may bind more. -/
inductive Extends : Scopes → Scopes → Prop
  | mk {b b' : Bindings} {bs bs' : Scope} {outer : List Scope}
    (inner : ∀ name, Table.has b name = true → Table.has b' name = true) (others : Scope.SameNames bs bs') :
    Extends ⟨(b :: bs) :: outer⟩ ⟨(b' :: bs') :: outer⟩

/-- The scopes below the newest one are the same, and every block of the newest one binds the same names. -/
inductive Keeps : Scopes → Scopes → Prop
  | mk {s s' : Scope} {outer : List Scope} (blocks : s.SameNames s') : Keeps ⟨s :: outer⟩ ⟨s' :: outer⟩

theorem Open.stack_ne_nil {t : Scopes} (h : t.Open) : t.stack ≠ [] := by
  obtain ⟨b, bs, outer, hstack⟩ := h
  rw [hstack]
  exact List.cons_ne_nil _ _

theorem Open.extends_refl {t : Scopes} (h : t.Open) : Extends t t := by
  obtain ⟨b, bs, outer, hstack⟩ := h
  obtain ⟨stack⟩ := t
  cases hstack
  exact .mk (fun _ h => h) (.refl bs)

theorem Extends.trans {t₁ t₂ t₃ : Scopes} (h₁ : Extends t₁ t₂) (h₂ : Extends t₂ t₃) : Extends t₁ t₃ := by
  cases h₁ with
  | mk inner₁ others₁ =>
    cases h₂ with
    | mk inner₂ others₂ => exact .mk (fun name h => inner₂ name (inner₁ name h)) (others₁.trans others₂)

theorem Extends.open {t t' : Scopes} (h : Extends t t') : t'.Open := by
  cases h with
  | mk => exact ⟨_, _, _, rfl⟩

theorem Keeps.extends {t t' : Scopes} (h : Keeps t t') (ht : t.Open) : Extends t t' := by
  obtain ⟨b, bs, outer, hstack⟩ := ht
  cases h with
  | mk blocks =>
    cases hstack
    cases blocks with
    | cons hb hbs => exact .mk (fun name h => (hb name).trans h) hbs

/-! ## Writing variables -/

/-- The block of the slot binds the name of the slot. -/
def Binds (t : Scopes) (x : Slot) : Prop :=
  ∃ s outer b, t.stack = s :: outer ∧ s[x.depth]? = some b ∧ Table.has b x.name = true

theorem install_extends {t : Scopes} (h : t.Open) (name : String) (v : Value) :
    ∃ t', t.install name v = .ok t' ∧ Extends t t' := by
  obtain ⟨b, bs, outer, hstack⟩ := h
  obtain ⟨stack⟩ := t
  cases hstack
  dsimp only [install]
  cases ho : Scope.overwrite? (b :: bs) name v with
  | some s' =>
    refine ⟨_, rfl, ?_⟩
    exact (Keeps.mk (Scope.overwrite?_sameNames ho)).extends ⟨b, bs, outer, rfl⟩
  | none =>
    refine ⟨_, rfl, .mk (fun other hb => ?_) (.refl bs)⟩
    rw [Table.has_put, hb, Bool.or_true]

theorem slot_extends {t : Scopes} (h : t.Open) (name : String) (default : Value) :
    ∃ x t', t.slot name default = .ok (x, t') ∧ Extends t t' ∧ t'.Binds x := by
  obtain ⟨b, bs, outer, hstack⟩ := h
  obtain ⟨stack⟩ := t
  cases hstack
  refine ⟨_, _, rfl, ?_⟩
  cases hd : Scope.depth? (b :: bs) name with
  | none =>
    refine ⟨.mk (fun other hb => Table.has_putNew_of_has hb) (.refl bs), ?_⟩
    exact ⟨_, outer, Table.putNew b name default, rfl, rfl, Table.has_putNew b name default⟩
  | some d =>
    -- the name is bound in that block, so nothing is entered
    obtain ⟨hlt, hbound, _⟩ := List.findIdx?_eq_some_iff_getElem.mp hd
    refine ⟨?_, ?_⟩
    · refine (Keeps.mk (.modify (b :: bs) d fun b' hb' => ?_)).extends ⟨b, bs, outer, rfl⟩
      rw [List.getElem?_eq_getElem hlt] at hb'
      cases hb'
      unfold Table.putNew
      rw [if_pos hbound]
      exact .refl _
    · refine ⟨_, outer, Table.putNew (b :: bs)[d] name default, rfl, ?_, Table.has_putNew _ _ _⟩
      show ((b :: bs).modify d _)[d]? = _
      rw [List.getElem?_modify, List.getElem?_eq_getElem hlt]
      exact congrArg some (if_pos rfl)

/-- Writing through a slot binds no name. -/
theorem write_keeps {t : Scopes} {x : Slot} (h : t.Binds x) (v : Value) :
    Keeps t (t.write x v) ∧ (t.write x v).Binds x := by
  obtain ⟨s, outer, b, hstack, hb, hname⟩ := h
  obtain ⟨stack⟩ := t
  cases hstack
  unfold write
  constructor
  · refine .mk (.modify s x.depth fun b' hb' => ?_)
    cases hb.symm.trans hb'
    exact .put hname v
  · refine ⟨_, outer, Table.put b x.name v, rfl, ?_, ?_⟩
    · rw [List.getElem?_modify, hb]
      exact congrArg some (if_pos rfl)
    · rw [Table.has_put, hname, Bool.or_true]

/-! ## Entering and leaving -/

/-- A block that was entered is left for what was open before. -/
theorem leaveBlock_keeps {s : Scope} {outer : List Scope} {t : Scopes}
    (h : Extends ⟨([] :: s) :: outer⟩ t) : ∃ b t', t.leaveBlock = .ok (b, t') ∧ Keeps ⟨s :: outer⟩ t' := by
  cases h with
  | mk inner others => exact ⟨_, _, rfl, .mk others⟩

/-- A scope that was entered is left for exactly what was there before. -/
theorem leaveScope_eq {t t' : Scopes} (h : Keeps t.enterScope t') : ∃ bindings, t'.leaveScope = .ok (bindings, t) := by
  obtain ⟨stack⟩ := t
  cases h with
  | mk => exact ⟨_, rfl⟩

/-! ## Bound values -/

/-- Every value that is bound satisfies `P`, also in scopes and blocks that are not visible. -/
def All (P : Value → Prop) (t : Scopes) : Prop := ∀ s ∈ t.stack, ∀ b ∈ s, ∀ x ∈ b, P x.2

section

variable {P : Value → Prop} {t t' : Scopes} {name : String} {v : Value}

theorem all_put {b : Bindings} (h : ∀ x ∈ b, P x.2) (hv : P v) : ∀ x ∈ Table.put b name v, P x.2 := by
  intro x hx
  rcases Table.mem_put hx with rfl | hx
  · exact hv
  · exact h x hx

theorem all_modify {s : Scope} {f : Bindings → Bindings} (h : ∀ b ∈ s, ∀ x ∈ b, P x.2)
    (hf : ∀ b : Bindings, (∀ x ∈ b, P x.2) → ∀ x ∈ f b, P x.2) (i : Nat) : ∀ b ∈ s.modify i f, ∀ x ∈ b, P x.2 := by
  induction s generalizing i with
  | nil => simp
  | cons b s ih =>
    obtain ⟨hb, hs⟩ := List.forall_mem_cons.mp h
    cases i with
    | zero => exact List.forall_mem_cons.mpr ⟨hf b hb, hs⟩
    | succ i =>
      rw [List.modify_succ_cons]
      exact List.forall_mem_cons.mpr ⟨hb, ih hs i⟩

theorem all_overwrite? {s s' : Scope} (h : ∀ b ∈ s, ∀ x ∈ b, P x.2) (hv : P v)
    (hs : s.overwrite? name v = some s') : ∀ b ∈ s', ∀ x ∈ b, P x.2 := by
  induction s generalizing s' with
  | nil => cases hs
  | cons b s ih =>
    obtain ⟨hb, hrest⟩ := List.forall_mem_cons.mp h
    unfold Scope.overwrite? at hs
    split at hs
    · cases hs
      exact List.forall_mem_cons.mpr ⟨all_put hb hv, hrest⟩
    · obtain ⟨s₁, hs₁, rfl⟩ := Option.map_eq_some_iff.mp hs
      exact List.forall_mem_cons.mpr ⟨hb, ih hrest hs₁⟩

theorem All.enterScope (h : t.All P) : t.enterScope.All P :=
  List.forall_mem_cons.mpr ⟨by simp, h⟩

theorem All.leaveScope {b : Bindings} (h : t.All P) (ht : t.leaveScope = .ok (b, t')) : t'.All P := by
  unfold Scopes.leaveScope at ht
  split at ht
  · cases ht
  · rename_i hstack
    cases ht
    exact fun s hs => h s (hstack ▸ List.mem_cons_of_mem _ hs)

theorem All.enterBlock (h : t.All P) (ht : t.enterBlock = .ok t') : t'.All P := by
  obtain ⟨stack⟩ := t
  cases stack with
  | nil => cases ht
  | cons s outer =>
    cases ht
    obtain ⟨hs, houter⟩ := List.forall_mem_cons.mp h
    exact List.forall_mem_cons.mpr ⟨List.forall_mem_cons.mpr ⟨by simp, hs⟩, houter⟩

theorem All.leaveBlock {b : Bindings} (h : t.All P) (ht : t.leaveBlock = .ok (b, t')) : t'.All P := by
  obtain ⟨stack⟩ := t
  match stack, ht with
  | (b :: s) :: outer, ht =>
    cases ht
    obtain ⟨hs, houter⟩ := List.forall_mem_cons.mp h
    exact List.forall_mem_cons.mpr ⟨(List.forall_mem_cons.mp hs).2, houter⟩

theorem All.install (h : t.All P) (hv : P v) (ht : t.install name v = .ok t') : t'.All P := by
  obtain ⟨stack⟩ := t
  cases stack with
  | nil => cases ht
  | cons s outer =>
    obtain ⟨hs, houter⟩ := List.forall_mem_cons.mp h
    unfold Scopes.install at ht
    dsimp only at ht
    split at ht
    · rename_i s' hs'
      cases ht
      exact List.forall_mem_cons.mpr ⟨all_overwrite? hs hv hs', houter⟩
    · cases ht
    · cases ht
      obtain ⟨hb, hrest⟩ := List.forall_mem_cons.mp hs
      exact List.forall_mem_cons.mpr ⟨List.forall_mem_cons.mpr ⟨all_put hb hv, hrest⟩, houter⟩

theorem All.lookup (h : t.All P) (ht : t.lookup name = some v) : P v := by
  obtain ⟨s, hs, hv⟩ := Option.bind_eq_some_iff.mp ht
  obtain ⟨b, hb, hv⟩ := List.exists_of_findSome?_eq_some hv
  exact h s (List.mem_of_head? hs) b hb _ (Table.mem_of_value? hv)

theorem All.slot {x : Slot} (h : t.All P) (hv : P v) (ht : t.slot name v = .ok (x, t')) : t'.All P := by
  obtain ⟨stack⟩ := t
  match stack, ht with
  | (b :: s) :: outer, ht =>
    cases ht
    obtain ⟨hs, houter⟩ := List.forall_mem_cons.mp h
    refine List.forall_mem_cons.mpr ⟨all_modify hs (fun b hb => ?_) _, houter⟩
    unfold Table.putNew
    split
    · exact hb
    · exact all_put hb hv

theorem All.read (h : t.All P) (hnull : P .null) (x : Slot) : P (t.read x) := by
  unfold Scopes.read
  cases hv : (t.stack.head?.bind (·[x.depth]?)).bind (Table.value? · x.name) with
  | none => exact hnull
  | some v =>
    obtain ⟨b, hb, hv⟩ := Option.bind_eq_some_iff.mp hv
    obtain ⟨s, hs, hb⟩ := Option.bind_eq_some_iff.mp hb
    exact h s (List.mem_of_head? hs) b (List.mem_of_getElem? hb) _ (Table.mem_of_value? hv)

theorem All.write (h : t.All P) (hv : P v) (x : Slot) : (t.write x v).All P := by
  obtain ⟨stack⟩ := t
  cases stack with
  | nil => exact h
  | cons s outer =>
    obtain ⟨hs, houter⟩ := List.forall_mem_cons.mp h
    exact List.forall_mem_cons.mpr ⟨all_modify hs (fun b hb => all_put hb hv) _, houter⟩

end

end Scopes

end ObjectAction
