/-
What one operation does to what navigation gives. A link that is made is the last to be found from its ends, taking
it away again gives back the population before it, and a second one like it is refused. With an instance, nothing
goes but the links that touch it.

Main statement: `relate_unrelate_navigate`. It is about hops along one leg. A hop across a link class follows two of
them, so it can change with a link that touches neither of its ends.
-/
import ObjectAction.Proofs.Population.Attributes
import ObjectAction.Proofs.Population.Navigation

namespace ObjectAction.Population

variable {p q : Population}

/-- From `a` to a class by one leg, as `r` reads it: the relationship is resolved to the leg, and following it from
`a` gives `xs`. -/
structure Hops (p : Population) (a : InstanceRef) (className id : String) (phrase : Option String) (r : Reading)
    (xs : List InstanceRef) : Prop where
  reading : p.reading a.className className id phrase = .ok r
  navigate : p.navigate a className id phrase = .ok xs

/-- A hop depends on the instance that exists, on the class that is defined, and on the links. -/
theorem hops_iff {a : InstanceRef} {className id : String} {phrase : Option String} {r : Reading}
    {xs : List InstanceRef} :
    p.Hops a className id phrase r xs ↔ p.Tracks a ∧ Table.has p.classes className = true ∧
      p.reading a.className className id phrase = .ok r ∧ p.linked r a = xs := by
  constructor
  · rintro ⟨hr, hnavigate⟩
    obtain ⟨i, hi, h⟩ := ok_of_bind hnavigate
    obtain ⟨c, hc, h⟩ := ok_of_bind h
    rw [hr] at h
    cases h
    refine ⟨⟨i, hi⟩, ?_, hr, rfl⟩
    rw [Table.has, value?_of_classDef hc]
    rfl
  · rintro ⟨ha, hclass, hr, rfl⟩
    exact ⟨hr, navigate_direct ha hclass hr⟩

/-- Where only links and instances differ, a relationship is read the same way. -/
theorem reading_congr (h : q.legs = p.legs) (source target id : String) (phrase : Option String) :
    q.reading source target id phrase = p.reading source target id phrase := by
  unfold reading readings
  rw [h]

/-! ## A link more -/

/-- What was linked comes first, and then what the new link leads to. -/
theorem linked_append (r : Reading) (x : InstanceRef) (l : Link) :
    linked { p with links := p.links ++ [l] } r x =
      p.linked r x ++ if r.leaves x l then [l.at r.side.other] else [] := by
  unfold linked
  rw [List.filter_append, List.map_append]
  congr 1
  by_cases hl : r.leaves x l = true
  · simp [hl]
  · simp [hl]

theorem leaves_link (r : Reading) (a b : InstanceRef) : r.leaves a (r.link a b) = true := by
  simp [Reading.leaves]

/-- A link is found from its two ends only, and only along its leg. -/
theorem eq_of_leaves_link {r s : Reading} {a b x : InstanceRef} (h : s.leaves x (r.link a b) = true) :
    s.index = r.index ∧ (x = a ∨ x = b) := by
  simp only [Reading.leaves, Reading.link_leg, decide_eq_true_eq] at h
  obtain ⟨hindex, hat⟩ := h
  refine ⟨hindex.symm, ?_⟩
  rcases Side.eq_or_eq_other s.side r.side with hside | hside
  · rw [hside, Reading.link_at_side] at hat
    exact .inl hat.symm
  · rw [hside, Reading.link_at_other] at hat
    exact .inr hat.symm

section

variable {a b : InstanceRef} {id : String} {phrase : Option String} {r : Reading}

theorem relate_of_joined (ha : p.Tracks a) (hb : p.Tracks b) (hr : p.reading a.className b.className id phrase = .ok r)
    (h : p.links.any (r.joins a b) = true) :
    p.relate a b id phrase = .error (.alreadyRelated a.text b.text id) := by
  obtain ⟨i, hi⟩ := ha
  obtain ⟨j, hj⟩ := hb
  simp only [relate, hi, hj, hr, bind, Except.bind]
  rw [if_pos (.inl h)]

theorem unrelate_of_joined (ha : p.Tracks a) (hb : p.Tracks b)
    (hr : p.reading a.className b.className id phrase = .ok r) (h : p.links.any (r.joins a b) = true) :
    p.unrelate a b id phrase = .ok { p with links := p.links.eraseP (r.joins a b) } := by
  obtain ⟨i, hi⟩ := ha
  obtain ⟨j, hj⟩ := hb
  simp only [unrelate, hi, hj, hr, bind, Except.bind]
  rw [if_pos h]
  rfl

theorem any_joins_append (p : Population) (r : Reading) (a b : InstanceRef) :
    (p.links ++ [r.link a b]).any (r.joins a b) = true := by
  simp [Reading.joins_link]

theorem relate_relate (h : p.relate a b id phrase = .ok q) :
    q.relate a b id phrase = .error (.alreadyRelated a.text b.text id) := by
  obtain ⟨r, ha, hb, hr, -, -, -, rfl⟩ := relate_ok h
  exact relate_of_joined ha hb ((reading_congr rfl _ _ _ _).trans hr) (any_joins_append p r a b)

/-- The link that is taken away is the first that joins the two. -/
theorem unrelate_link (ha : p.Tracks a) (hb : p.Tracks b) (hr : p.reading a.className b.className id phrase = .ok r)
    {before : List Link} (hnew : ∀ l ∈ before, r.joins a b l = false) (after : List Link) :
    unrelate { p with links := before ++ r.link a b :: after } a b id phrase =
      .ok { p with links := before ++ after } := by
  have herase : (before ++ r.link a b :: after).eraseP (r.joins a b) = before ++ after := by
    rw [List.eraseP_append_right _ (by simpa using hnew)]
    simp [Reading.joins_link]
  have hjoined : (before ++ r.link a b :: after).any (r.joins a b) = true := by simp [Reading.joins_link]
  have hunrelate := unrelate_of_joined (p := { p with links := before ++ r.link a b :: after }) ha hb
    ((reading_congr rfl _ _ _ _).trans hr) hjoined
  rw [hunrelate]
  dsimp only
  rw [herase]

/-- Nothing that was there joins the two, so the link that is taken away is the new one. -/
theorem unrelate_relate (h : p.relate a b id phrase = .ok q) : q.unrelate a b id phrase = .ok p := by
  obtain ⟨r, ha, hb, hr, hnew, -, -, rfl⟩ := relate_ok h
  rw [unrelate_link ha hb hr hnew [], List.append_nil]

end

/-- With a link more, the hops along other legs and from other instances give what they gave. -/
theorem hops_link_iff {r s : Reading} {a b x : InstanceRef} {className id : String} {phrase : Option String}
    {xs : List InstanceRef} (h : x ≠ a ∧ x ≠ b ∨ s.index ≠ r.index) :
    Hops { p with links := p.links ++ [r.link a b] } x className id phrase s xs ↔
      p.Hops x className id phrase s xs := by
  have hleaves : s.leaves x (r.link a b) = false := by
    by_contra hne
    obtain ⟨hindex, hx⟩ := eq_of_leaves_link (Bool.not_eq_false _ ▸ hne)
    rcases h with ⟨ha, hb⟩ | h
    · exact hx.elim ha hb
    · exact h hindex
  rw [hops_iff, hops_iff, reading_congr (p := p) rfl, linked_append, hleaves, if_neg Bool.false_ne_true,
    List.append_nil]
  rfl

/-! ## An instance less -/

/-- What was linked stays, in its order, but for the instance that went. -/
theorem linked_delete (r : Reading) {x y : InstanceRef} (hy : y ≠ x) :
    linked { p with instances := p.instances.filter (·.ref ≠ x), links := p.links.filter (!·.touches x) } r y =
      (p.linked r y).filter (· ≠ x) := by
  unfold linked
  rw [List.filter_map, List.filter_filter, List.filter_filter]
  congr 1
  apply List.filter_congr
  intro l _
  by_cases hl : r.leaves y l = true
  · -- from `y` at its one side, the link touches `x` just when it leads there
    have hat : l.at r.side = y := (of_decide_eq_true hl).2
    have htouches : l.touches x = true ↔ l.at r.side.other = x := by
      rw [Link.touches_iff]
      constructor
      · rintro ⟨side, hside⟩
        rcases Side.eq_or_eq_other side r.side with rfl | rfl
        · exact absurd (hat.symm.trans hside) hy
        · exact hside
      · exact fun hother => ⟨_, hother⟩
    by_cases hx : l.at r.side.other = x
    · simp [hl, hx, htouches.mpr hx]
    · simp [hl, hx, mt htouches.mp hx]
  · simp [hl]

theorem hops_delete {x y : InstanceRef} (h : p.delete x = .ok q) (hy : y ≠ x) {className id : String}
    {phrase : Option String} {r : Reading} {ys : List InstanceRef} (hops : p.Hops y className id phrase r ys) :
    q.Hops y className id phrase r (ys.filter (· ≠ x)) := by
  obtain rfl := delete_ok h
  obtain ⟨hy', hclass, hr, rfl⟩ := hops_iff.mp hops
  refine hops_iff.mpr ⟨?_, hclass, ?_, linked_delete r hy⟩
  · rw [tracks_iff] at hy' ⊢
    obtain ⟨i, hi, rfl⟩ := List.mem_map.mp hy'
    exact List.mem_map.mpr ⟨i, List.mem_filter.mpr ⟨hi, decide_eq_true hy⟩, rfl⟩
  · exact (reading_congr rfl _ _ _ _).trans hr

/-! ## Histories -/

/-- Instances are of classes that are defined. -/
theorem has_of_tracks (h : p.Conforms) {a : InstanceRef} (ha : p.Tracks a) :
    Table.has p.classes a.className = true := by
  obtain ⟨i, hi⟩ := ha
  obtain ⟨hmem, rfl⟩ := mem_of_tracked hi
  obtain ⟨-, c, hc, -⟩ := h i hmem
  show (Table.value? p.classes i.className).isSome = true
  rw [hc]
  rfl

/-- After every history: a link that is made is found from its one end behind all that was found there, can be taken
away again with nothing left of it, and is refused a second time. No hop along another leg or from another instance
changes. When an instance is deleted, every hop from another one gives what it gave without it, in the same order. -/
theorem relate_unrelate_navigate (ops : List Operation) :
    (∀ a b id phrase q, (initial.afterAll ops).relate a b id phrase = .ok q → ∃ r xs,
      (initial.afterAll ops).Hops a b.className id phrase r xs ∧
      q.Hops a b.className id phrase r (xs ++ [b]) ∧
      q.unrelate a b id phrase = .ok (initial.afterAll ops) ∧
      q.relate a b id phrase = .error (.alreadyRelated a.text b.text id) ∧
      ∀ x className id' phrase' s ys, x ≠ a ∧ x ≠ b ∨ s.index ≠ r.index →
        (q.Hops x className id' phrase' s ys ↔ (initial.afterAll ops).Hops x className id' phrase' s ys)) ∧
    (∀ x q, (initial.afterAll ops).delete x = .ok q → ∀ y className id phrase r ys, y ≠ x →
      (initial.afterAll ops).Hops y className id phrase r ys →
      q.Hops y className id phrase r (ys.filter (· ≠ x))) := by
  constructor
  · intro a b id phrase q h
    have hunrelate := unrelate_relate h
    have hrelate := relate_relate h
    obtain ⟨r, ha, hb, hr, -, -, -, rfl⟩ := relate_ok h
    have hclass := has_of_tracks (conforms_afterAll ops) hb
    have hlinked := linked_append (p := initial.afterAll ops) r a (r.link a b)
    rw [leaves_link, if_pos rfl, Reading.link_at_other] at hlinked
    refine ⟨r, _, hops_iff.mpr ⟨ha, hclass, hr, rfl⟩, hops_iff.mpr ⟨ha, hclass, ?_, hlinked⟩, hunrelate, hrelate,
      fun x className id' phrase' s ys hother => hops_link_iff hother⟩
    exact (reading_congr rfl _ _ _ _).trans hr
  · intro x q h y className id phrase r ys hy hops
    exact hops_delete h hy hops

/-- Three tasks, of which the second comes after the first. -/
def succession : List Operation :=
  [.defineClass "Task" [],
    .defineAssociation "R2" ⟨"Task", some "precedes", true⟩ ⟨"Task", some "follows", true⟩,
    .create "Task", .create "Task", .create "Task", .relate ⟨"Task", 1⟩ ⟨"Task", 2⟩ "R2" (some "follows")]

/-- A task may come after itself, and that too can be taken back. -/
theorem relate_unrelate_navigate_self :
    (∃ q, (initial.afterAll succession).relate ⟨"Task", 1⟩ ⟨"Task", 1⟩ "R2" (some "follows") = .ok q ∧
      q.navigate ⟨"Task", 1⟩ "Task" "R2" (some "follows") = .ok [⟨"Task", 2⟩, ⟨"Task", 1⟩] ∧
      q.unrelate ⟨"Task", 1⟩ ⟨"Task", 1⟩ "R2" (some "follows") = .ok (initial.afterAll succession)) ∧
    ∃ q, (initial.afterAll succession).delete ⟨"Task", 2⟩ = .ok q ∧
      q.navigate ⟨"Task", 1⟩ "Task" "R2" (some "follows") = .ok [] := by
  obtain ⟨hrelate, hdelete⟩ := relate_unrelate_navigate succession
  have hnavigate : (initial.afterAll succession).navigate ⟨"Task", 1⟩ "Task" "R2" (some "follows") =
      .ok [⟨"Task", 2⟩] := by decide
  constructor
  · obtain ⟨q, hq⟩ : ∃ q, (initial.afterAll succession).relate ⟨"Task", 1⟩ ⟨"Task", 1⟩ "R2" (some "follows") =
        .ok q := ⟨_, rfl⟩
    obtain ⟨r, xs, hops, hops', hback, -⟩ := hrelate _ _ _ _ q hq
    obtain rfl : xs = [⟨"Task", 2⟩] := Except.ok.inj (hops.navigate.symm.trans hnavigate)
    exact ⟨q, hq, hops'.navigate, hback⟩
  · obtain ⟨q, hq⟩ : ∃ q, (initial.afterAll succession).delete ⟨"Task", 2⟩ = .ok q := ⟨_, rfl⟩
    obtain ⟨r, hr⟩ : ∃ r, (initial.afterAll succession).reading "Task" "Task" "R2" (some "follows") = .ok r :=
      ⟨_, rfl⟩
    exact ⟨q, hq, (hdelete _ q hq ⟨"Task", 1⟩ _ _ _ r _ (by decide) ⟨hr, hnavigate⟩).navigate⟩

end ObjectAction.Population
