/-
Tables in order: their names ascend, so none of them stands twice, and what is entered last is what is found.
-/
import ObjectAction.Table
import Mathlib.Data.String.Basic
import Mathlib.Tactic

namespace ObjectAction.Table

variable {α : Type} {t : Table α} {name : String} {v : α}

/-- The names ascend, so none of them stands twice. -/
def Ascending (t : Table α) : Prop := t.Pairwise (·.1 < ·.1)

theorem Ascending.put (h : Ascending t) (name : String) (v : α) : Ascending (put t name v) := by
  unfold Ascending at *
  fun_induction Table.put t name v with
  | case1 => exact List.pairwise_singleton _ _
  | case2 => simpa using h
  | case3 k w rest name v hne hlt =>
    refine List.pairwise_cons.mpr ⟨fun e he => ?_, h⟩
    rcases List.mem_cons.mp he with rfl | he
    · exact hlt
    · exact lt_trans hlt ((List.pairwise_cons.mp h).1 e he)
  | case4 k w rest name v hne hlt ih =>
    obtain ⟨hhead, hrest⟩ := List.pairwise_cons.mp h
    refine List.pairwise_cons.mpr ⟨fun e he => ?_, ih hrest⟩
    rcases mem_put he with rfl | he
    · exact lt_of_le_of_ne (not_lt.mp hlt) hne
    · exact hhead e he

theorem value?_eq_none (h : ∀ e ∈ t, name < e.1) : value? t name = none := by
  induction t with
  | nil => rfl
  | cons e t ih =>
    have hlt := h e List.mem_cons_self
    rw [value?, if_neg hlt.ne']
    exact ih fun e' he' => h e' (List.mem_cons_of_mem e he')

/-- To enter what is there already changes nothing. -/
theorem Ascending.put_self (h : Ascending t) (hv : value? t name = some v) : Table.put t name v = t := by
  unfold Ascending at h
  fun_induction Table.put t name v with
  | case1 => cases hv
  | case2 w rest name v =>
    rw [value?, if_pos rfl] at hv
    cases hv
    rfl
  | case3 k w rest name v hne hlt =>
    -- all names of the table come after this one
    rw [value?, if_neg hne, value?_eq_none] at hv
    · cases hv
    · exact fun e he => lt_trans hlt ((List.pairwise_cons.mp h).1 e he)
  | case4 k w rest name v hne hlt ih =>
    rw [value?, if_neg hne] at hv
    rw [ih (List.pairwise_cons.mp h).2 hv]

/-! ## Entering twice, and entering all -/

/-- Of two values that are entered under one name, the second is kept. -/
theorem put_put (t : Table α) (name : String) (v w : α) : put (put t name v) name w = put t name w := by
  fun_induction put t name v with
  | case1 => simp [put]
  | case2 => simp [put]
  | case3 k u rest name v hne hlt => simp [put, hne, hlt]
  | case4 k u rest name v hne hlt ih => simp [put, hne, hlt, ih]

/-- The entries of the second table go before those of the first. -/
theorem value?_putAll {u : Table α} (h : Ascending u) (t : Table α) (name : String) :
    value? (putAll t u) name = (value? u name).or (value? t name) := by
  unfold putAll
  induction u generalizing t with
  | nil => rfl
  | cons e u ih =>
    obtain ⟨hhead, hrest⟩ := List.pairwise_cons.mp h
    rw [List.foldl_cons, ih hrest, value?]
    by_cases he : e.1 = name
    · -- the name comes before all that follow it
      subst he
      rw [value?_eq_none hhead, value?_put_self, if_pos rfl]
      rfl
    · rw [value?_put_of_ne he, if_neg he]

/-! ## Entering in any order -/

theorem put_perm (h : has t name = false) (v : α) : (put t name v).Perm ((name, v) :: t) := by
  unfold has at h
  fun_induction Table.put t name v with
  | case1 => exact .refl _
  | case2 w rest name v => simp [value?] at h
  | case3 k w rest name v hne hlt => exact .refl _
  | case4 k w rest name v hne hlt ih =>
    rw [value?, if_neg hne] at h
    exact ((ih h).cons (k, w)).trans (.swap _ _ _)

/-- Entries under different names, none of which is there, are all added. -/
theorem putAll_perm {u : Table α} (hnames : (u.map (·.1)).Nodup) (hnew : ∀ e ∈ u, has t e.1 = false) :
    (putAll t u).Perm (u ++ t) := by
  unfold putAll
  induction u generalizing t with
  | nil => exact .refl t
  | cons e u ih =>
    obtain ⟨hfresh, hnames⟩ := List.nodup_cons.mp hnames
    have hnew' : ∀ e' ∈ u, has (Table.put t e.1 e.2) e'.1 = false := by
      intro e' he'
      have hne : e.1 ≠ e'.1 := fun heq => hfresh (List.mem_map.mpr ⟨e', he', heq.symm⟩)
      rw [has_put, decide_eq_false hne, hnew e' (List.mem_cons_of_mem e he')]
      rfl
    have hput := put_perm (hnew e List.mem_cons_self) e.2
    exact (ih hnames hnew').trans ((hput.append_left u).trans List.perm_middle)

theorem Ascending.nodup_names (h : Ascending t) : (t.map (·.1)).Nodup :=
  (List.pairwise_map.mpr h).imp fun hlt => ne_of_lt hlt

theorem Ascending.putAll (h : Ascending t) (u : Table α) : Ascending (putAll t u) := by
  unfold Table.putAll
  induction u generalizing t with
  | nil => exact h
  | cons e u ih => exact ih (h.put e.1 e.2)

/-- A table is made of its entries, in whatever order they are entered. -/
theorem Ascending.putAll_of_perm {u : Table α} (h : Ascending t) (hu : u.Perm t) : Table.putAll [] u = t := by
  have hnames : (u.map (·.1)).Nodup := (hu.map _).nodup_iff.mpr h.nodup_names
  have hperm : (Table.putAll [] u).Perm t := by
    have hall := putAll_perm (t := []) hnames fun _ _ => rfl
    rw [List.append_nil] at hall
    exact hall.trans hu
  refine hperm.eq_of_pairwise (fun a b _ _ hab hba => ?_) (Ascending.putAll .nil u) h
  exact absurd hba (lt_asymm hab)

end ObjectAction.Table
