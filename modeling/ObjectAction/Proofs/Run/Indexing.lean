/-
What is read at an index place of a variable. An array has elements up to its length and null behind them, and what
null or an array holds can be indexed again; so what a variable holds decides what is read at each path of indices from
it (`indexed`). To read an index writes the variable, but what is read at its indices stays the same; to write one
changes what is read at the end of its path and below.
-/
import ObjectAction.Proofs.Population.History
import ObjectAction.Proofs.Run.Discipline
import ObjectAction.Proofs.Scope.Lookup

namespace ObjectAction

namespace Run

/-! ## Paths of indices -/

/-- Two paths differ at a depth that both have. -/
def Diverge (p q : List Nat) : Prop := ∃ k i j : Nat, p[k]? = some i ∧ q[k]? = some j ∧ i ≠ j

theorem diverge_cons {i j : Nat} {p q : List Nat} : Diverge (i :: p) (j :: q) ↔ i ≠ j ∨ Diverge p q := by
  constructor
  · rintro ⟨k, a, b, ha, hb, hab⟩
    cases k with
    | zero =>
      cases ha
      cases hb
      exact .inl hab
    | succ k => exact .inr ⟨k, a, b, ha, hb, hab⟩
  · rintro (hij | ⟨k, a, b, ha, hb, hab⟩)
    · exact ⟨0, i, j, rfl, rfl, hij⟩
    · exact ⟨k + 1, a, b, ha, hb, hab⟩

theorem not_diverge_of_nil (q : List Nat) : ¬ Diverge [] q := by
  rintro ⟨k, i, j, hi, -, -⟩
  cases hi

theorem not_diverge_nil (p : List Nat) : ¬ Diverge p [] := by
  rintro ⟨k, i, j, -, hj, -⟩
  cases hj

/-- A path that differs from a longer one differs from its beginning, or takes another index behind it. -/
theorem diverge_snoc {p q : List Nat} {i : Nat} (h : Diverge (p ++ [i]) q) :
    Diverge p q ∨ ∃ j rest, q = p ++ j :: rest ∧ i ≠ j := by
  induction p generalizing q with
  | nil =>
    cases q with
    | nil => exact absurd h (not_diverge_nil _)
    | cons j rest =>
      rcases diverge_cons.mp h with hij | ⟨k, a, b, ha, -, -⟩
      · exact .inr ⟨j, rest, rfl, hij⟩
      · cases ha
  | cons c p ih =>
    cases q with
    | nil => exact absurd h (not_diverge_nil _)
    | cons d q =>
      rcases diverge_cons.mp h with hcd | hpq
      · exact .inl (diverge_cons.mpr (.inl hcd))
      · by_cases hcd : c = d
        · subst hcd
          rcases ih hpq with hdiverge | ⟨j, rest, rfl, hij⟩
          · exact .inl (diverge_cons.mpr (.inr hdiverge))
          · exact .inr ⟨j, rest, rfl, hij⟩
        · exact .inl (diverge_cons.mpr (.inl hcd))

/-! ## Arrays -/

/-- What is read at the end of a path into a value. -/
def follow : Value → List Nat → Except Fault Value
  | v, [] => .ok v
  | v, i :: rest => do
    let items ← elements v
    follow (items.getD i .null) rest

/-- What is read at an index of a variable that holds the value. -/
def element (v : Value) (i : Nat) : Except Fault Value := do
  let items ← elements v
  let grown ← growTo items i
  return grown.getD i .null

/-- What is read at the end of a path from a variable that holds the value. -/
def indexed (v : Value) : List Nat → Except Fault Value
  | [] => .ok v
  | i :: rest => do follow (← element v i) rest

theorem follow_append (v : Value) (p q : List Nat) : follow v (p ++ q) = follow v p >>= (follow · q) := by
  induction p generalizing v with
  | nil => rfl
  | cons i p ih =>
    show elements v >>= _ = (elements v >>= _) >>= _
    rw [bind_assoc]
    exact congrArg _ (funext fun items => ih _)

theorem indexed_append (v : Value) {p : List Nat} (hp : p ≠ []) (q : List Nat) :
    indexed v (p ++ q) = indexed v p >>= (follow · q) := by
  cases p with
  | nil => exact absurd rfl hp
  | cons i p =>
    show element v i >>= _ = (element v i >>= _) >>= _
    rw [bind_assoc]
    exact congrArg _ (funext fun w => follow_append w p q)

/-- Whatever is read below null is null. -/
theorem follow_null (p : List Nat) : follow .null p = .ok .null := by
  induction p with
  | nil => rfl
  | cons i p ih => exact ih

/-- Nulls at the end of an array make no difference to what is read in it. -/
theorem getD_append_nulls (items : List Value) (n j : Nat) :
    (items ++ List.replicate n Value.null).getD j .null = items.getD j .null := by
  simp only [List.getD_eq_getElem?_getD, List.getElem?_append, List.getElem?_replicate]
  by_cases hj : j < items.length
  · rw [if_pos hj]
  · rw [if_neg hj, List.getElem?_eq_none (by omega)]
    split
    · rfl
    · rfl

/-- An array grows by nulls, up to the index, and not beyond the limit. -/
theorem growTo_spec {items grown : List Value} {i : Nat} (h : growTo items i = .ok grown) :
    i < grown.length ∧ grown.length ≤ max items.length maxArrayLength ∧
      ∃ n, grown = items ++ List.replicate n .null := by
  unfold growTo at h
  split at h
  · rename_i hi
    cases h
    exact ⟨hi, by omega, 0, by simp⟩
  · split at h
    · cases h
      simp only [List.length_append, List.length_replicate]
      exact ⟨by omega, by omega, _, rfl⟩
    · cases h

/-- An index can be read if it is in the array, or the array may grow up to it. -/
theorem element_array (items : List Value) (i : Nat) :
    element (.array items) i =
      if i < items.length ∨ i < maxArrayLength then .ok (items.getD i .null) else .error (.indexOutOfRange i) := by
  show (growTo items i >>= fun grown => Pure.pure (grown.getD i .null)) = _
  cases hg : growTo items i with
  | ok grown =>
    obtain ⟨hi, hlength, n, rfl⟩ := growTo_spec hg
    rw [if_pos (by omega)]
    exact congrArg Except.ok (getD_append_nulls items n i)
  | error f =>
    unfold growTo at hg
    split at hg
    · cases hg
    · split at hg
      · cases hg
      · cases hg
        rw [if_neg (by omega)]
        rfl

theorem element_of_elements {v : Value} {items : List Value} (h : elements v = .ok items) (i : Nat) :
    element v i = element (.array items) i := by
  unfold element
  rw [h]
  rfl

section

variable {items grown : List Value} {i : Nat}

/-- To grow an array changes nothing that is read in it. -/
theorem element_growTo (h : growTo items i = .ok grown) (j : Nat) :
    element (.array grown) j = element (.array items) j := by
  obtain ⟨-, hlength, n, hgrown⟩ := growTo_spec h
  have hlonger : items.length ≤ grown.length := by simp [hgrown]
  have hbound : (j < grown.length ∨ j < maxArrayLength) ↔ (j < items.length ∨ j < maxArrayLength) := by omega
  rw [element_array, element_array]
  simp only [hbound]
  rw [hgrown, getD_append_nulls]

theorem store_spec {items' : List Value} {v : Value} (h : store items i v = .ok items') :
    ∃ grown, growTo items i = .ok grown ∧ items' = grown.set i v := by
  unfold store at h
  cases hg : growTo items i with
  | ok grown =>
    rw [hg] at h
    cases h
    exact ⟨grown, rfl, rfl⟩
  | error f =>
    rw [hg] at h
    cases h

/-- After a write, an array holds what was written, and at the other indices what it held. -/
theorem getD_store {items' : List Value} {v : Value} (h : store items i v = .ok items') (j : Nat) :
    items'.getD j .null = if j = i then v else items.getD j .null := by
  obtain ⟨grown, hg, rfl⟩ := store_spec h
  obtain ⟨hi, -, n, hgrown⟩ := growTo_spec hg
  by_cases hj : j = i
  · subst hj
    simp [hi]
  · rw [if_neg hj, ← getD_append_nulls items n j, ← hgrown]
    simp [List.getElem?_set_ne (Ne.symm hj)]

/-- The same of a variable that holds the array, which grows only as far as it may. -/
theorem element_store {items' : List Value} {v : Value} (h : store items i v = .ok items') (j : Nat) :
    element (.array items') j = if j = i then .ok v else element (.array items) j := by
  obtain ⟨grown, hg, hitems'⟩ := store_spec h
  obtain ⟨hi, -, -⟩ := growTo_spec hg
  have hlength : items'.length = grown.length := by simp [hitems']
  rw [← element_growTo hg j, element_array, element_array, getD_store h, hlength]
  by_cases hj : j = i
  · rw [if_pos hj, if_pos hj, if_pos (by omega)]
  · obtain ⟨-, -, n, hgrown⟩ := growTo_spec hg
    rw [if_neg hj, if_neg hj, hgrown, getD_append_nulls]

end

/-! ## Written paths -/

/-- From what was read at each path, a value is written at the end of one: it is read there, and what is read at a path
that differs stays the same. -/
structure Written (before after : List Nat → Except Fault Value) (p : List Nat) (v : Value) : Prop where
  here : after p = .ok v
  apart : ∀ q, Diverge p q → after q = before q

/-- What is read behind a path is read in what is read there. -/
def ReadsThrough (reads : List Nat → Except Fault Value) (p : List Nat) : Prop :=
  ∀ q, reads (p ++ q) = reads p >>= (follow · q)

/-- To write an index is to write back the array that it is an index of. -/
theorem Written.snoc {before after : List Nat → Except Fault Value} {p : List Nat} {i : Nat} {w v : Value}
    {items items' : List Value} (hbefore : ReadsThrough before p) (hafter : ReadsThrough after p)
    (hw : before p = .ok w) (hitems : elements w = .ok items) (hstore : store items i v = .ok items')
    (h : Written before after p (.array items')) : Written before after (p ++ [i]) v := by
  -- below the path, one index of the array is looked at before and after
  have hread : ∀ j rest, before (p ++ j :: rest) = follow (items.getD j .null) rest := by
    intro j rest
    rw [hbefore, hw]
    show (elements w >>= fun items => follow (items.getD j .null) rest) = _
    rw [hitems]
    rfl
  have hwritten : ∀ j rest, after (p ++ j :: rest) = follow (items'.getD j .null) rest := by
    intro j rest
    rw [hafter, h.here]
    rfl
  constructor
  · rw [hwritten, getD_store hstore, if_pos rfl]
    rfl
  · intro q hq
    rcases diverge_snoc hq with hdiverge | ⟨j, rest, rfl, hij⟩
    · exact h.apart q hdiverge
    · rw [hread, hwritten, getD_store hstore, if_neg (Ne.symm hij)]

/-! ## Variables that are used as arrays -/

end Run

namespace Scopes

/-- What an index of the variable looks at: an unbound one is an empty array. -/
def held (t : Scopes) (name : String) : Value := (t.lookup name).getD (.array [])

/-- What is read at the end of a path from the variable. -/
def reads (t : Scopes) (name : String) (path : List Nat) : Except Fault Value := Run.indexed (t.held name) path

/-- The same is read at every index of every variable. -/
inductive Alike (t : Scopes) : Scopes → Prop
  | same : Alike t t
  | grown {t' : Scopes} (before : t.Open) (after : t'.Open)
    (elements : ∀ name i, Run.element (t'.held name) i = Run.element (t.held name) i) : Alike t t'

theorem Alike.reads_eq {t t' : Scopes} (h : t.Alike t') (name : String) {path : List Nat} (hpath : path ≠ []) :
    t'.reads name path = t.reads name path := by
  cases h with
  | same => rfl
  | grown before after elements =>
    cases path with
    | nil => exact absurd rfl hpath
    | cons i rest =>
      show (Run.element (t'.held name) i >>= _) = _
      rw [elements name i]
      rfl

theorem Alike.eq_or_open {t t' : Scopes} (h : t.Alike t') : t' = t ∨ t.Open ∧ t'.Open := by
  cases h with
  | same => exact .inl rfl
  | grown before after _ => exact .inr ⟨before, after⟩

theorem Alike.isOpen {t t' : Scopes} (h : t.Alike t') (ht : t.Open) : t'.Open := by
  rcases h.eq_or_open with rfl | ⟨-, hopen⟩
  · exact ht
  · exact hopen

theorem readsThrough (t : Scopes) (name : String) {path : List Nat} (hpath : path ≠ []) :
    Run.ReadsThrough (t.reads name) path :=
  fun q => Run.indexed_append (t.held name) hpath q

theorem Alike.eq_of_closed {t t' : Scopes} (h : t.Alike t') {e : ScopeError}
    (hclosed : ∀ name default, t.slot name default = .error e) : t' = t := by
  rcases h.eq_or_open with heq | ⟨hopen, -⟩
  · exact heq
  · obtain ⟨x, t₁, hslot, -⟩ := slot_extends hopen "" .null
    rw [hclosed] at hslot
    cases hslot

/-- A block is open, or every slot fails in the same way. -/
theorem open_or (t : Scopes) : t.Open ∨ ∃ e, ∀ name default, t.slot name default = .error e := by
  obtain ⟨stack⟩ := t
  match stack with
  | [] => exact .inr ⟨.noScope, fun _ _ => rfl⟩
  | [] :: _ => exact .inr ⟨.noBlock, fun _ _ => rfl⟩
  | (b :: bs) :: outer => exact .inl ⟨b, bs, outer, rfl⟩

end Scopes

namespace Run

variable {α : Type}

/-- What a variable holds after its elements were asked for and written back with a change, as far as that went. -/
def updated (g : List Value → Except Fault (List Value)) (v : Value) : Value :=
  match elements v with
  | .error _ => v
  | .ok items =>
    match g items with
    | .ok items' => .array items'
    | .error _ => .array items

/-- To use a variable as an array writes it, unless it is none: then it is left as it is. -/
theorem updateArray_install {s : RunState} (hs : s.scopes.Open) (name : String)
    (g : List Value → Except Fault (List Value)) (h : List Value → α) :
    ∃ t : Scopes,
      (t = s.scopes ∧ s.scopes.lookup name = some (updated g (s.scopes.held name)) ∨
        s.scopes.install name (updated g (s.scopes.held name)) = .ok t) ∧
      updateArray name g h s =
        ofExcept (do return h (← g (← elements (s.scopes.held name)))) { s with scopes := t } := by
  obtain ⟨x, t, ht, -, -⟩ := Scopes.slot_extends hs name (.array [])
  have hread : t.read x = s.scopes.held name := Scopes.read_slot ht
  have hslot : arraySlot name s = (do
      let items ← ofExcept (elements (s.scopes.held name))
      Run.modify fun s => { s with scopes := s.scopes.write x (.array items) }
      return (x, items)) { s with scopes := t } := by
    rw [← hread]
    exact bind_done (changeScopes_ok ht)
  unfold updated
  cases he : elements (s.scopes.held name) with
  | error f =>
    rw [he] at hslot
    have hfailed : arraySlot name s = .failed f { s with scopes := t } := hslot
    -- what is no array is the value of a variable that is bound
    have hbound : s.scopes.lookup name = some (s.scopes.held name) := by
      cases hv : s.scopes.lookup name with
      | some v => simp [Scopes.held, hv]
      | none => simp [Scopes.held, hv, elements] at he
    exact ⟨t, .inl ⟨Scopes.slot_of_lookup ht hbound, hbound⟩, bind_failed hfailed⟩
  | ok items =>
    rw [he] at hslot
    have hdone : arraySlot name s = .done (x, items) { s with scopes := t.write x (.array items) } := hslot
    have hupdate : updateArray name g h s = (do
        let items' ← ofExcept (g items)
        writeArray x items'
        return h items') { s with scopes := t.write x (.array items) } := bind_done hdone
    show ∃ t : Scopes, _ ∧ updateArray name g h s = ofExcept (do return h (← g items)) { s with scopes := t }
    rw [hupdate]
    dsimp only
    cases hg : g items with
    | error f => exact ⟨_, .inr (Scopes.write_slot ht (.array items)), rfl⟩
    | ok items' =>
      -- of the two arrays that are written, the second is kept
      refine ⟨_, .inr (Scopes.write_slot ht (.array items')), ?_⟩
      rw [← Scopes.write_write t x (.array items) (.array items')]
      rfl

theorem updateArray_eq {s : RunState} (hs : s.scopes.Open) (name : String)
    (g : List Value → Except Fault (List Value)) (h : List Value → α) :
    ∃ t : Scopes, t.Open ∧
      (∀ other, t.lookup other =
        if other = name then some (updated g (s.scopes.held name)) else s.scopes.lookup other) ∧
      updateArray name g h s =
        ofExcept (do return h (← g (← elements (s.scopes.held name)))) { s with scopes := t } := by
  obtain ⟨t, ⟨rfl, hbound⟩ | hinstall, hupdate⟩ := updateArray_install hs name g h
  · refine ⟨s.scopes, hs, fun other => ?_, hupdate⟩
    by_cases hn : other = name
    · rw [if_pos hn, hn, hbound]
    · rw [if_neg hn]
  · obtain ⟨t₁, ht₁, hextends⟩ := Scopes.install_extends hs name (updated g (s.scopes.held name))
    rw [hinstall] at ht₁
    cases ht₁
    exact ⟨t, hextends.open, Scopes.lookup_install hinstall, hupdate⟩

/-! ## Index places of a variable -/

end Run

/-- The place that is reached from another one by indices. -/
def Place.along (root : Place) (path : List Nat) : Place := path.foldl .index root

theorem Place.along_snoc (root : Place) (path : List Nat) (i : Nat) :
    root.along (path ++ [i]) = .index (root.along path) i := by
  simp [Place.along]

theorem Place.along_ne_var (root : Place) {path : List Nat} (hpath : path ≠ []) (name : String) :
    root.along path ≠ .var name := by
  rcases path.eq_nil_or_concat with rfl | ⟨p, i, rfl⟩
  · exact absurd rfl hpath
  · rw [List.concat_eq_append, along_snoc]
    exact Place.noConfusion

theorem Place.derived_along_ne_var (path : List Nat) (name : String) : Place.derived.along path ≠ .var name := by
  by_cases hpath : path = []
  · subst hpath
    exact Place.noConfusion
  · exact along_ne_var _ hpath name

namespace Run

/-- That its array grows changes what is read at none of the indices of a variable. -/
theorem element_updated_growTo (v : Value) (i j : Nat) : element (updated (growTo · i) v) j = element v j := by
  unfold updated
  cases he : elements v with
  | error f => rfl
  | ok items =>
    dsimp only
    cases hg : growTo items i with
    | error f => exact (element_of_elements he j).symm
    | ok grown =>
      rw [element_of_elements he j]
      exact element_growTo hg j

section

variable (derive : Action → InstanceRef → String → Run Value) {s s' : RunState} {name : String} {path : List Nat}

/-- To read an index of a variable leaves variables that are read in the same way. -/
theorem get_var_index (hs : s.scopes.Open) (name : String) (i : Nat) :
    ∃ t, s.scopes.Alike t ∧ (∀ other, other ≠ name → t.lookup other = s.scopes.lookup other) ∧
      get derive (.index (.var name) i) s = ofExcept (element (s.scopes.held name) i) { s with scopes := t } := by
  obtain ⟨t, hopen, hlookup, heq⟩ := updateArray_eq hs name (growTo · i) (·.getD i .null)
  refine ⟨t, .grown hs hopen fun other j => ?_, fun other hn => ?_, heq⟩
  · unfold Scopes.held
    rw [hlookup]
    by_cases hn : other = name
    · subst hn
      rw [if_pos rfl, Option.getD_some]
      exact element_updated_growTo _ i j
    · rw [if_neg hn]
  · rw [hlookup, if_neg hn]

theorem indexed_singleton (v : Value) (i : Nat) : indexed v [i] = element v i := by
  show (element v i >>= fun w => .ok w) = element v i
  cases element v i with
  | ok | error => rfl

/-- An index of a place that is read with this result, but of no variable. -/
theorem get_index_eq {base : Place} (hbase : ∀ name, base ≠ .var name) {r : Except Fault Value}
    (h : get derive base s = ofExcept r s') (i : Nat) :
    get derive (.index base i) s = ofExcept (r >>= (follow · [i])) s' := by
  rw [get_index derive hbase]
  cases r with
  | error f => exact bind_failed h
  | ok w =>
    refine (bind_done h).trans ?_
    show _ = ofExcept (elements w >>= fun items => .ok (items.getD i .null)) s'
    cases elements w with
    | ok | error => rfl

theorem get_var_along (hs : s.scopes.Open) (name : String) (hpath : path ≠ []) :
    ∃ t, s.scopes.Alike t ∧ (∀ other, other ≠ name → t.lookup other = s.scopes.lookup other) ∧
      get derive ((Place.var name).along path) s = ofExcept (s.scopes.reads name path) { s with scopes := t } := by
  -- the last index is looked at in what the place before it holds
  induction path using List.reverseRecOn with
  | nil => exact absurd rfl hpath
  | append_singleton p i ih =>
    by_cases hp : p = []
    · subst hp
      unfold Scopes.reads
      rw [List.nil_append, indexed_singleton]
      exact get_var_index derive hs name i
    · obtain ⟨t, halike, hothers, heq⟩ := ih hp
      refine ⟨t, halike, hothers, ?_⟩
      rw [Place.along_snoc, s.scopes.readsThrough name hp]
      exact get_index_eq derive (Place.along_ne_var _ hp) heq i

/-- To write an index of a place that is read with this result, but of no variable. -/
theorem set_index_eq {base : Place} (hbase : ∀ name, base ≠ .var name) {r : Except Fault Value}
    (h : get derive base s = ofExcept r s') (i : Nat) (v : Value) :
    (∃ f, set derive (.index base i) v s = .failed f s') ∨
    ∃ w items items', r = .ok w ∧ elements w = .ok items ∧ store items i v = .ok items' ∧
      set derive (.index base i) v s = set derive base (.array items') s' := by
  rw [set_index derive hbase]
  cases r with
  | error f => exact .inl ⟨f, bind_failed h⟩
  | ok w =>
    rw [bind_done h]
    cases hitems : elements w with
    | error f => exact .inl ⟨f, rfl⟩
    | ok items =>
      cases hstore : store items i v with
      | error f =>
        left
        refine ⟨f, ?_⟩
        show (ofExcept (store items i v) >>= _) s' = _
        rw [hstore]
        rfl
      | ok items' =>
        right
        refine ⟨w, items, items', rfl, hitems, hstore, ?_⟩
        show (ofExcept (store items i v) >>= _) s' = _
        rw [hstore]
        rfl

theorem set_var_index (hs : s.scopes.Open) (name : String) (i : Nat) (v : Value) :
    ∃ t r, set derive (.index (.var name) i) v s = ofExcept r { s with scopes := t } ∧ t.Open ∧
      (∀ other, other ≠ name → t.lookup other = s.scopes.lookup other) ∧
      (r = .ok () → Written (s.scopes.reads name) (t.reads name) [i] v) := by
  obtain ⟨t, hopen, hlookup, heq⟩ := updateArray_eq hs name (store · i v) fun _ => ()
  refine ⟨t, _, heq, hopen, fun other hn => ?_, fun hdone => ?_⟩
  · rw [hlookup, if_neg hn]
  · -- the elements were read and one was written, so that this is what the variable holds
    obtain ⟨items, hitems, hdone⟩ := Population.ok_of_bind hdone
    obtain ⟨items', hstore, -⟩ := Population.ok_of_bind hdone
    have hheld : t.held name = .array items' := by
      unfold Scopes.held
      rw [hlookup, if_pos rfl]
      unfold updated
      rw [hitems]
      dsimp only
      rw [hstore]
      rfl
    have helement : ∀ j, element (t.held name) j = if j = i then .ok v else element (s.scopes.held name) j := by
      intro j
      rw [hheld, element_of_elements hitems, element_store hstore]
    constructor
    · show indexed (t.held name) [i] = .ok v
      rw [indexed_singleton, helement, if_pos rfl]
    · intro q hq
      cases q with
      | nil => exact absurd hq (not_diverge_nil _)
      | cons j rest =>
        rcases diverge_cons.mp hq with hij | hnil
        · show (element (t.held name) j >>= _) = _
          rw [helement, if_neg (Ne.symm hij)]
          rfl
        · exact absurd hnil (not_diverge_of_nil _)

/-- To write an index of a variable changes no other variable, and if it is done, what is read at the end of its path
and below. -/
theorem set_var_along (hs : s.scopes.Open) (name : String) (hpath : path ≠ []) (v : Value) :
    ∃ t r, set derive ((Place.var name).along path) v s = ofExcept r { s with scopes := t } ∧ t.Open ∧
      (∀ other, other ≠ name → t.lookup other = s.scopes.lookup other) ∧
      (r = .ok () → Written (s.scopes.reads name) (t.reads name) path v) := by
  induction path using List.reverseRecOn generalizing s v with
  | nil => exact absurd rfl hpath
  | append_singleton p i ih =>
    by_cases hp : p = []
    · subst hp
      exact set_var_index derive hs name i v
    · obtain ⟨t₁, halike, hothers, hget⟩ := get_var_along derive hs name hp
      rw [Place.along_snoc]
      rcases set_index_eq derive (Place.along_ne_var _ hp) hget i v with
        ⟨f, hfailed⟩ | ⟨w, items, items', hw, hitems, hstore, heq⟩
      · exact ⟨t₁, .error f, hfailed, halike.isOpen hs, hothers, nofun⟩
      · -- the array is written back where the place before the last index was read
        obtain ⟨t, r, hset, hopen, hothers', hwritten⟩ :=
          ih (s := { s with scopes := t₁ }) (halike.isOpen hs) hp (.array items')
        refine ⟨t, r, heq.trans hset, hopen, fun other hn => (hothers' other hn).trans (hothers other hn), fun hr => ?_⟩
        obtain ⟨hhere, hapart⟩ := hwritten hr
        refine Written.snoc (s.scopes.readsThrough name hp) (t.readsThrough name hp) hw hitems hstore ⟨hhere, ?_⟩
        intro q hq
        rw [hapart q hq]
        refine halike.reads_eq name ?_
        rintro rfl
        exact not_diverge_nil _ hq

/-! ## Where no block is open -/

section

variable {e : ScopeError} (hclosed : ∀ name default, s.scopes.slot name default = .error e)

include hclosed

theorem arraySlot_closed (name : String) : arraySlot name s = .failed (.scope e) s := by
  have hslot : changeScopes (·.slot name (.array [])) s = .failed (.scope e) s := by
    simp only [changeScopes, hclosed]
  exact bind_failed hslot

theorem get_var_along_closed (name : String) (hpath : path ≠ []) :
    get derive ((Place.var name).along path) s = .failed (.scope e) s := by
  induction path using List.reverseRecOn with
  | nil => exact absurd rfl hpath
  | append_singleton p i ih =>
    rw [Place.along_snoc]
    by_cases hp : p = []
    · subst hp
      exact bind_failed (arraySlot_closed hclosed name)
    · rw [get_index derive (Place.along_ne_var _ hp)]
      exact bind_failed (ih hp)

theorem set_var_along_closed (name : String) (hpath : path ≠ []) (v : Value) :
    set derive ((Place.var name).along path) v s = .failed (.scope e) s := by
  rcases path.eq_nil_or_concat with rfl | ⟨p, i, rfl⟩
  · exact absurd rfl hpath
  · rw [List.concat_eq_append, Place.along_snoc]
    by_cases hp : p = []
    · subst hp
      exact bind_failed (arraySlot_closed hclosed name)
    · rw [set_index derive (Place.along_ne_var _ hp)]
      exact bind_failed (get_var_along_closed derive hclosed name hp)

end

/-! ## The attribute that a body computes -/

theorem get_derived_along (s : RunState) (path : List Nat) :
    get derive (Place.derived.along path) s = ofExcept (follow (computed s) path) s := by
  induction path using List.reverseRecOn with
  | nil => rfl
  | append_singleton p i ih =>
    rw [Place.along_snoc, follow_append]
    exact get_index_eq derive (Place.derived_along_ne_var p) ih i

/-- In a body that computes an attribute, its index places are written like those of a variable. -/
theorem set_derived_along {cell : DerivedCell} (hcell : s.activation.derived = some cell) {v : Value}
    (hset : set derive (Place.derived.along path) v s = .done () s') :
    Written (follow (computed s)) (follow (computed s')) path v := by
  induction path using List.reverseRecOn generalizing v with
  | nil =>
    cases hset
    constructor
    · simp [computed, hcell, follow]
    · intro q hq
      exact absurd hq (not_diverge_of_nil q)
  | append_singleton p i ih =>
    rw [Place.along_snoc] at hset
    rcases set_index_eq derive (Place.derived_along_ne_var p) (get_derived_along derive s p) i v with
      ⟨f, hfailed⟩ | ⟨w, items, items', hw, hitems, hstore, heq⟩
    · rw [hfailed] at hset
      cases hset
    · rw [heq] at hset
      exact (ih hset).snoc (follow_append _ p) (follow_append _ p) hw hitems hstore

end

end Run

end ObjectAction
