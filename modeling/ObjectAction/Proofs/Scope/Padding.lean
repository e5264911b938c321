/-
Variables that are padded: an array gets nulls behind its elements, and a variable that is null or not bound becomes an
array of nulls. Nothing else happens to the variables, in whichever block they are bound.
-/
import ObjectAction.Proofs.Scope.Lookup

namespace ObjectAction

/-- The value is the same, or an array with nulls behind the elements that it had; null had none. -/
inductive Value.Padded : Value → Value → Prop
  | same (v : Value) : Padded v v
  | null (n : Nat) : Padded .null (.array (List.replicate n .null))
  | array (items : List Value) (n : Nat) : Padded (.array items) (.array (items ++ List.replicate n .null))

namespace Value.Padded

theorem trans {v v₁ v₂ : Value} (h₁ : Padded v v₁) (h₂ : Padded v₁ v₂) : Padded v v₂ := by
  cases h₁ with
  | same => exact h₂
  | null n =>
    cases h₂ with
    | same => exact .null n
    | array _ m =>
      rw [List.replicate_append_replicate]
      exact .null (n + m)
  | array items n =>
    cases h₂ with
    | same => exact .array items n
    | array _ m =>
      rw [List.append_assoc, List.replicate_append_replicate]
      exact .array items (n + m)

/-- Of an array of nulls, an array of nulls is left. -/
theorem of_nulls {n : Nat} {v : Value} (h : Padded (.array (List.replicate n .null)) v) :
    ∃ m, v = .array (List.replicate m .null) := by
  cases h with
  | same => exact ⟨n, rfl⟩
  | array _ m => exact ⟨n + m, by rw [List.replicate_append_replicate]⟩

end Value.Padded

/-- The block binds the same names, and what they hold is padded. -/
def Bindings.Padded (b b' : Bindings) : Prop :=
  ∀ name, Option.Rel Value.Padded (Table.value? b name) (Table.value? b' name)

namespace Bindings.Padded

theorem rel_refl (o : Option Value) : Option.Rel Value.Padded o o := by
  cases o with
  | none => exact .none
  | some v => exact .some (.same v)

theorem rel_trans {o o₁ o₂ : Option Value} (h₁ : Option.Rel Value.Padded o o₁)
    (h₂ : Option.Rel Value.Padded o₁ o₂) : Option.Rel Value.Padded o o₂ := by
  cases h₁ with
  | none => exact h₂
  | some hv₁ =>
    cases h₂ with
    | some hv₂ => exact .some (hv₁.trans hv₂)

/-- Of two relations the one at the first binding counts. -/
theorem rel_or {o o' u u' : Option Value} (ho : Option.Rel Value.Padded o o') (hu : Option.Rel Value.Padded u u') :
    Option.Rel Value.Padded (o.or u) (o'.or u') := by
  cases ho with
  | none => exact hu
  | some hv => exact .some hv

theorem refl (b : Bindings) : Padded b b := fun _ => rel_refl _

theorem trans {b b₁ b₂ : Bindings} (h₁ : Padded b b₁) (h₂ : Padded b₁ b₂) : Padded b b₂ :=
  fun name => rel_trans (h₁ name) (h₂ name)

theorem put {b : Bindings} {name : String} {v w : Value} (h : Table.value? b name = some w) (hv : w.Padded v) :
    Padded b (Table.put b name v) := by
  intro other
  by_cases hn : other = name
  · subst hn
    rw [h, Table.value?_put_self]
    exact .some hv
  · rw [Table.value?_put_of_ne (Ne.symm hn)]
    exact rel_refl _

end Bindings.Padded

namespace Scope

/-- Block by block, what is bound is padded. -/
def Padded : Scope → Scope → Prop := List.Forall₂ Bindings.Padded

theorem Padded.refl (s : Scope) : Padded s s := List.forall₂_same.mpr fun b _ => .refl b

theorem Padded.trans {s s₁ s₂ : Scope} (h₁ : Padded s s₁) (h₂ : Padded s₁ s₂) : Padded s s₂ := by
  induction h₁ generalizing s₂ with
  | nil => exact h₂
  | cons hb _ ih =>
    cases h₂ with
    | cons hb' hrest => exact .cons (hb.trans hb') (ih hrest)

/-- A name that is found is still found, and no other. -/
theorem Padded.rel {s s' : Scope} (h : Padded s s') (name : String) :
    Option.Rel Value.Padded (s.value? name) (s'.value? name) := by
  induction h with
  | nil => exact .none
  | cons hb _ ih =>
    rw [value?_cons, value?_cons]
    exact Bindings.Padded.rel_or (hb name) ih

theorem value?_eq_none_of_overwrite? {s : Scope} {name : String} {v : Value} (h : s.overwrite? name v = none) :
    s.value? name = none := by
  rw [overwrite?_eq, Option.map_eq_none_iff] at h
  rw [value?_eq_depth?, h]
  rfl

theorem padded_overwrite? {s s' : Scope} {name : String} {v : Value} (h : s.overwrite? name v = some s')
    (hv : ∀ w, s.value? name = some w → w.Padded v) : Padded s s' := by
  induction s generalizing s' with
  | nil => cases h
  | cons b s ih =>
    unfold overwrite? at h
    rw [value?_cons] at hv
    split at h
    · rename_i hb
      obtain ⟨w, hw⟩ := Option.isSome_iff_exists.mp hb
      cases h
      rw [hw] at hv
      exact .cons (.put hw (hv w rfl)) (Padded.refl s)
    · rename_i hb
      obtain ⟨s₁, hs₁, rfl⟩ := Option.map_eq_some_iff.mp h
      have hnone : Table.value? b name = none := by simpa [Table.has] using hb
      rw [hnone] at hv
      exact .cons (.refl b) (ih hs₁ hv)

end Scope

namespace Scopes

/-- Only the newest scope differs. What its blocks bind is padded, and names that none of them bound may be bound in the
innermost one, to arrays of nulls. -/
inductive Padded : Scopes → Scopes → Prop
  | mk {b b' : Bindings} {bs bs' : Scope} {outer : List Scope}
    (inner : ∀ name, Option.Rel Value.Padded (Table.value? b name) (Table.value? b' name) ∨
      Scope.value? (b :: bs) name = none ∧ ∃ n, Table.value? b' name = some (.array (List.replicate n .null)))
    (others : Scope.Padded bs bs') : Padded ⟨(b :: bs) :: outer⟩ ⟨(b' :: bs') :: outer⟩

theorem Open.padded_refl {t : Scopes} (h : t.Open) : Padded t t := by
  obtain ⟨b, bs, outer, hstack⟩ := h
  obtain ⟨stack⟩ := t
  cases hstack
  exact .mk (fun _ => .inl (Bindings.Padded.rel_refl _)) (.refl bs)

theorem Padded.open {t t' : Scopes} (h : Padded t t') : t'.Open := by
  cases h with
  | mk => exact ⟨_, _, _, rfl⟩

theorem Padded.trans {t t₁ t₂ : Scopes} (h₁ : Padded t t₁) (h₂ : Padded t₁ t₂) : Padded t t₂ := by
  cases h₁ with
  | @mk b b₁ bs bs₁ outer inner₁ others₁ =>
    cases h₂ with
    | @mk _ b₂ _ bs₂ _ inner₂ others₂ =>
      refine .mk (fun name => ?_) (others₁.trans others₂)
      rcases inner₁ name with hrel₁ | ⟨hnone, n, hn⟩
      · rcases inner₂ name with hrel₂ | ⟨hnone₁, hnulls⟩
        · exact .inl (Bindings.Padded.rel_trans hrel₁ hrel₂)
        · -- what is not bound in between was not bound before
          have hrel := Bindings.Padded.rel_or hrel₁ (others₁.rel name)
          rw [← Scope.value?_cons, ← Scope.value?_cons, hnone₁] at hrel
          refine .inr ⟨?_, hnulls⟩
          generalize Scope.value? (b :: bs) name = o at hrel
          cases hrel
          rfl
      · refine .inr ⟨hnone, ?_⟩
        rcases inner₂ name with hrel₂ | ⟨-, hnulls⟩
        · rw [hn] at hrel₂
          generalize Table.value? b₂ name = o at hrel₂
          cases hrel₂ with
          | some hv =>
            obtain ⟨m, rfl⟩ := hv.of_nulls
            exact ⟨m, rfl⟩
        · exact hnulls

/-- To write a variable that is null, an array or not bound pads the variables, if it pads what the variable holds. -/
theorem padded_install {t t' : Scopes} {name : String} {v : Value} (ht : t.Open)
    (hv : ((t.lookup name).getD (.array [])).Padded v) (h : t.install name v = .ok t') : t.Padded t' := by
  obtain ⟨b, bs, outer, hstack⟩ := ht
  obtain ⟨stack⟩ := t
  cases hstack
  have hlookup : (⟨(b :: bs) :: outer⟩ : Scopes).lookup name = Scope.value? (b :: bs) name := rfl
  rw [hlookup] at hv
  dsimp only [install] at h
  cases ho : Scope.overwrite? (b :: bs) name v with
  | some s' =>
    rw [ho] at h
    cases h
    have hpadded := Scope.padded_overwrite? ho fun w hw => by rwa [hw] at hv
    cases hpadded with
    | cons hb hbs => exact .mk (fun other => .inl (hb other)) hbs
  | none =>
    rw [ho] at h
    cases h
    have hunbound := Scope.value?_eq_none_of_overwrite? ho
    rw [hunbound] at hv
    obtain ⟨n, rfl⟩ := Value.Padded.of_nulls (n := 0) hv
    refine .mk (fun other => ?_) (.refl bs)
    by_cases hn : other = name
    · subst hn
      exact .inr ⟨hunbound, n, Table.value?_put_self b other _⟩
    · rw [Table.value?_put_of_ne (Ne.symm hn)]
      exact .inl (Bindings.Padded.rel_refl _)

end Scopes

end ObjectAction
