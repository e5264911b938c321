/-
Tables from names to anything, kept in ascending order of the names, so that two tables with the
same entries are equal. Main statements: what is found after `put`.
-/
namespace ObjectAction

/-- Entries by name, ascending. -/
abbrev Table (α : Type) := List (String × α)

namespace Table

variable {α : Type}

def value? : Table α → String → Option α
  | [], _ => none
  | (k, v) :: rest, name => if k = name then some v else value? rest name

def has (t : Table α) (name : String) : Bool := (value? t name).isSome

/-- Enters `v` under `name`, in place of what was there. -/
def put : Table α → String → α → Table α
  | [], name, v => [(name, v)]
  | (k, w) :: rest, name, v =>
    if k = name then (name, v) :: rest
    else if name < k then (name, v) :: (k, w) :: rest
    else (k, w) :: put rest name v

/-- Enters `v` under `name` if nothing is there. -/
def putNew (t : Table α) (name : String) (v : α) : Table α :=
  if has t name then t else put t name v

/-- Enters all entries of `u`. -/
def putAll (t u : Table α) : Table α :=
  u.foldl (fun t e => put t e.1 e.2) t

@[simp] theorem value?_put_self (t : Table α) (name : String) (v : α) :
    value? (put t name v) name = some v := by
  fun_induction put t name v <;> simp_all [value?]

theorem value?_put_of_ne {name other : String} (h : name ≠ other) (t : Table α) (v : α) :
    value? (put t name v) other = value? t other := by
  fun_induction put t name v <;> simp_all [value?]

theorem has_put (t : Table α) (name other : String) (v : α) :
    has (put t name v) other = (decide (name = other) || has t other) := by
  unfold has
  by_cases h : name = other
  · rw [h, value?_put_self, decide_eq_true rfl]
    rfl
  · rw [value?_put_of_ne h, decide_eq_false h]
    rfl

theorem mem_of_value? {t : Table α} {name : String} {v : α} (h : value? t name = some v) : (name, v) ∈ t := by
  fun_induction value? t name <;> simp_all

theorem mem_put {t : Table α} {name : String} {v : α} {e : String × α} (h : e ∈ put t name v) :
    e = (name, v) ∨ e ∈ t := by
  fun_induction put t name v <;> grind

end Table

end ObjectAction
