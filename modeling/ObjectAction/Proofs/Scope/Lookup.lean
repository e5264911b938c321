/-
What is found in a variable after a write: the value that was written there, and in every other variable what it held
before. A slot holds what its variable does, or the default that it was asked with.

Main statement: `write_paths_agree`. To write a variable by its name and to write it through its slot are the same, in
blocks of any depth, also where a name is bound more than once.
-/
import ObjectAction.Proofs.Scope.Shadowing

namespace ObjectAction

namespace Scope

variable {s s' : Scope} {name : String} {v : Value}

theorem value?_cons (b : Bindings) (s : Scope) (name : String) :
    value? (b :: s) name = (Table.value? b name).or (value? s name) := by
  unfold value?
  rw [List.findSome?_cons]
  cases Table.value? b name <;> rfl

theorem value?_put_cons (b : Bindings) (s : Scope) (name other : String) (v : Value) :
    value? (Table.put b name v :: s) other = if other = name then some v else value? (b :: s) other := by
  rw [value?_cons, value?_cons]
  by_cases hn : other = name
  · rw [if_pos hn, hn, Table.value?_put_self]
    rfl
  · rw [if_neg hn, Table.value?_put_of_ne (Ne.symm hn)]

theorem value?_overwrite? (h : s.overwrite? name v = some s') (other : String) :
    s'.value? other = if other = name then some v else s.value? other := by
  induction s generalizing s' with
  | nil => cases h
  | cons b s ih =>
    unfold overwrite? at h
    split at h
    · cases h
      exact value?_put_cons b s name other v
    · rename_i hb
      obtain ⟨s₁, hs₁, rfl⟩ := Option.map_eq_some_iff.mp h
      rw [value?_cons, value?_cons, ih hs₁]
      by_cases hn : other = name
      · -- the name is found behind a block that does not bind it
        have hnone : Table.value? b name = none := by simpa [Table.has] using hb
        rw [if_pos hn, if_pos hn, hn, hnone]
        rfl
      · rw [if_neg hn, if_neg hn]

/-- A name is found in the nearest block that binds it. -/
theorem value?_eq_depth? (s : Scope) (name : String) :
    s.value? name = (s.depth? name).bind fun i => s[i]?.bind (Table.value? · name) := by
  induction s with
  | nil => rfl
  | cons b s ih =>
    unfold depth? at ih ⊢
    rw [value?_cons, List.findIdx?_cons, ih]
    by_cases hb : Table.has b name = true
    · obtain ⟨v, hv⟩ := Option.isSome_iff_exists.mp hb
      simp [hb, hv]
    · have hnone : Table.value? b name = none := by simpa [Table.has] using hb
      simp [hb, hnone, Option.bind_map]

/-- What a block holds that binds a name, and no block inside of it does. -/
theorem value?_of_depth? {i : Nat} (h : s.depth? name = some i) :
    ∃ b v, s[i]? = some b ∧ Table.value? b name = some v ∧ s.value? name = some v := by
  obtain ⟨hlt, hbound, -⟩ := List.findIdx?_eq_some_iff_getElem.mp h
  obtain ⟨v, hv⟩ := Option.isSome_iff_exists.mp hbound
  refine ⟨_, v, List.getElem?_eq_getElem hlt, hv, ?_⟩
  rw [value?_eq_depth?, h, Option.bind_some, List.getElem?_eq_getElem hlt, Option.bind_some, hv]

end Scope

namespace Scopes

variable {t t' : Scopes} {name : String} {default v : Value} {x : Slot}

theorem lookup_install (h : t.install name v = .ok t') (other : String) :
    t'.lookup other = if other = name then some v else t.lookup other := by
  obtain ⟨stack⟩ := t
  cases stack with
  | nil => cases h
  | cons s outer =>
    unfold install at h
    dsimp only at h
    split at h
    · rename_i s' hs'
      cases h
      exact Scope.value?_overwrite? hs' other
    · cases h
    · cases h
      exact Scope.value?_put_cons _ _ name other v

/-- A slot holds what its variable does, or else the default. -/
theorem read_slot (h : t.slot name default = .ok (x, t')) : t'.read x = (t.lookup name).getD default := by
  obtain ⟨stack⟩ := t
  match stack, h with
  | (b :: bs) :: outer, h =>
    cases h
    cases hd : Scope.depth? (b :: bs) name with
    | some i =>
      obtain ⟨b', v, hb', hv, hvalue⟩ := Scope.value?_of_depth? hd
      simp [read, lookup, Scope.modify_putNew hd, hb', hv, hvalue]
    | none =>
      have hb := Scope.depth?_eq_none_iff.mp hd b List.mem_cons_self
      simp [read, lookup, Table.putNew, hb, Scope.value?_eq_depth?, hd]

/-- To ask for the slot of a variable that is bound changes nothing. -/
theorem slot_of_lookup (h : t.slot name default = .ok (x, t')) (hv : t.lookup name = some v) : t' = t := by
  obtain ⟨stack⟩ := t
  match stack, h with
  | (b :: bs) :: outer, h =>
    cases h
    have hvalue : Scope.value? (b :: bs) name = some v := hv
    rw [Scope.value?_eq_depth?] at hvalue
    obtain ⟨i, hd, -⟩ := Option.bind_eq_some_iff.mp hvalue
    rw [hd, Option.getD_some, Scope.modify_putNew hd]

/-- A variable that is not bound is bound to the default. -/
theorem slot_of_lookup_none (h : t.slot name default = .ok (x, t')) (hnone : t.lookup name = none) :
    t.install name default = .ok t' := by
  obtain ⟨stack⟩ := t
  match stack, h with
  | (b :: bs) :: outer, h =>
    cases h
    have hvalue : Scope.value? (b :: bs) name = none := hnone
    cases hd : Scope.depth? (b :: bs) name with
    | some i =>
      obtain ⟨_, v, _, _, hbound⟩ := Scope.value?_of_depth? hd
      rw [hvalue] at hbound
      cases hbound
    | none =>
      have hb := Scope.depth?_eq_none_iff.mp hd b List.mem_cons_self
      simp [install, Scope.overwrite?_eq, hd, Table.putNew, hb]

/-! ## Two ways to write -/

/-- Where no slot can be had, the name cannot be written either. -/
theorem install_of_slot_error {e : ScopeError} (h : t.slot name default = .error e) (v : Value) :
    t.install name v = .error e := by
  obtain ⟨stack⟩ := t
  match stack, h with
  | [], h =>
    cases h
    rfl
  | [] :: outer, h =>
    cases h
    rfl

/-- A name that is bound has a slot, whatever the default. -/
theorem slot_ok_of_lookup (h : t.lookup name = some v) (default : Value) :
    ∃ x t', t.slot name default = .ok (x, t') := by
  obtain ⟨stack⟩ := t
  match stack, h with
  | (b :: bs) :: outer, _ => exact ⟨_, _, rfl⟩

/-- To write through the slot of a name leaves the same variables as to write the name, or fails for the same reason.
A slot that is asked for holds what the name is found with, and then no variable changes; a name that is not found is
bound to the default first. -/
theorem write_paths_agree (t : Scopes) (name : String) (default v : Value) :
    (t.slot name default).map (fun r => r.2.write r.1 v) = t.install name v ∧
    (∀ w, t.lookup name = some w → ∃ x, t.slot name default = .ok (x, t) ∧ t.read x = w) ∧
    (t.lookup name = none → ∀ x t', t.slot name default = .ok (x, t') →
      t'.read x = default ∧ t.install name default = .ok t') := by
  refine ⟨?_, ?_, ?_⟩
  · cases h : t.slot name default with
    | error e => exact (install_of_slot_error h v).symm
    | ok r => exact (write_slot h v).symm
  · intro w hw
    obtain ⟨x, t', hslot⟩ := slot_ok_of_lookup hw default
    obtain rfl : t' = t := slot_of_lookup hslot hw
    refine ⟨x, hslot, ?_⟩
    rw [read_slot hslot, hw, Option.getD_some]
  · intro hnone x t' hslot
    refine ⟨?_, slot_of_lookup_none hslot hnone⟩
    rw [read_slot hslot, hnone, Option.getD_none]

/-- Two activations. In the newer one a block inside two others is open, which bind one name both. -/
def shadowedSample : Scopes :=
  ⟨[[[("y", .integer 1)], [("x", .integer 2), ("z", .null)], [("x", .integer 3)]], [[("w", .integer 4)]]]⟩

/-- The nearer of the two bindings is found and written, and a name of the older activation is bound anew. -/
theorem write_paths_agree_shadowedSample :
    (shadowedSample.lookup "x" = some (.integer 2) ∧
      ∃ x, shadowedSample.slot "x" .null = .ok (x, shadowedSample) ∧ shadowedSample.read x = .integer 2) ∧
    (shadowedSample.lookup "w" = none ∧ ∃ x t', shadowedSample.slot "w" .null = .ok (x, t') ∧
      t'.read x = .null ∧ shadowedSample.install "w" .null = .ok t') ∧
    (shadowedSample.slot "x" .null).map (fun r => r.2.write r.1 (.integer 5)) =
      shadowedSample.install "x" (.integer 5) := by
  obtain ⟨hwrite, hbound, -⟩ := write_paths_agree shadowedSample "x" .null (.integer 5)
  obtain ⟨-, -, hfresh⟩ := write_paths_agree shadowedSample "w" .null .null
  have hx : shadowedSample.lookup "x" = some (.integer 2) := by rfl
  have hw : shadowedSample.lookup "w" = none := by rfl
  exact ⟨⟨hx, hbound _ hx⟩, ⟨hw, _, _, rfl, hfresh hw _ _ rfl⟩, hwrite⟩

end Scopes

end ObjectAction
