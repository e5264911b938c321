/-
The links of a population at every point of a history: each belongs to a leg, joins two instances that
exist and have the classes of the leg's ends, stands there once, and an end with room for one instance
holds at most one for each instance at the opposite end.

Links are stored by the ends of their leg, but made and removed in either reading direction, so the
statements speak of the two sides alike.
-/
import ObjectAction.Proofs.Population.History

namespace ObjectAction

/-! ## Sides -/

namespace Side

@[simp] theorem other_other (s : Side) : s.other.other = s := by cases s <;> rfl

theorem eq_or_eq_other (s t : Side) : s = t ∨ s = t.other := by
  cases s <;> cases t <;> first | exact .inl rfl | exact .inr rfl

end Side

namespace Reading

@[simp] theorem link_leg (r : Reading) (a b : InstanceRef) : (r.link a b).leg = r.index := by
  unfold link
  cases r.side <;> rfl

@[simp] theorem link_at_side (r : Reading) (a b : InstanceRef) : (r.link a b).at r.side = a := by
  unfold link
  cases r.side <;> rfl

@[simp] theorem link_at_other (r : Reading) (a b : InstanceRef) : (r.link a b).at r.side.other = b := by
  unfold link
  cases r.side <;> rfl

theorem joins_link (r : Reading) (a b : InstanceRef) : r.joins a b (r.link a b) = true := by
  simp [joins]

end Reading

namespace Link

/-- Whether the link is one of leg `i` with `a` at `side`. -/
def isAt (i : Nat) (side : Side) (a : InstanceRef) (l : Link) : Bool := l.leg = i ∧ l.at side = a

theorem isAt_iff {i : Nat} {side : Side} {a : InstanceRef} {l : Link} :
    l.isAt i side a = true ↔ l.leg = i ∧ l.at side = a := decide_eq_true_iff

theorem touches_iff {l : Link} {r : InstanceRef} : l.touches r = true ↔ ∃ side, l.at side = r := by
  unfold touches
  rw [decide_eq_true_iff]
  constructor
  · rintro (h | h)
    · exact ⟨.first, h⟩
    · exact ⟨.second, h⟩
  · rintro ⟨side, h⟩
    cases side with
    | first => exact .inl h
    | second => exact .inr h

end Link

namespace Population

/-! ## The invariant -/

/-- The links fit the legs and the instances. -/
structure LinksFit (p : Population) : Prop where
  /-- The leg of a link exists, and what it joins exists and has the classes of the leg's ends. -/
  typed : ∀ l ∈ p.links, ∃ leg, p.legs[l.leg]? = some leg ∧
    ∀ side, p.Tracks (l.at side) ∧ (l.at side).className = (leg.at side).className
  /-- No two links of a leg join the same instances in the same order. -/
  distinct : p.links.Nodup
  /-- Where an end has room for one instance, each instance at the other end is in one link at most. -/
  single : ∀ i leg side, p.legs[i]? = some leg → (leg.at side).many = false →
    ∀ a, p.links.countP (Link.isAt i side.other a) ≤ 1

namespace LinksFit

/-- The invariant is kept if legs are only added, links only removed, and the instances that are still
linked still exist. -/
theorem mono {p q : Population} (h : p.LinksFit) (hlegs : p.legs <+: q.legs) (hlinks : q.links.Sublist p.links)
    (htracks : ∀ l ∈ q.links, ∀ side, p.Tracks (l.at side) → q.Tracks (l.at side)) : q.LinksFit := by
  have hget : ∀ i, i < p.legs.length → q.legs[i]? = p.legs[i]? := by
    obtain ⟨more, hmore⟩ := hlegs
    intro i hi
    rw [← hmore, List.getElem?_append_left hi]
  have hindex : ∀ l ∈ p.links, l.leg < p.legs.length := by
    intro l hl
    obtain ⟨leg, hleg, _⟩ := h.typed l hl
    exact (List.getElem?_eq_some_iff.mp hleg).1
  refine ⟨fun l hl => ?_, h.distinct.sublist hlinks, fun i leg side hleg hmany a => ?_⟩
  · obtain ⟨leg, hleg, hsides⟩ := h.typed l (hlinks.subset hl)
    refine ⟨leg, by rw [hget _ (hindex l (hlinks.subset hl)), hleg], fun side => ?_⟩
    exact ⟨htracks l hl side (hsides side).1, (hsides side).2⟩
  · refine hlinks.countP_le.trans ?_
    rcases Nat.lt_or_ge i p.legs.length with hi | hi
    · exact h.single i leg side (by rw [← hget i hi, hleg]) hmany a
    · -- a leg that was added has no links yet
      have hzero : p.links.countP (Link.isAt i side.other a) = 0 := by
        rw [List.countP_eq_zero]
        intro l hl hat
        have hl := hindex l hl
        rw [(Link.isAt_iff.mp hat).1] at hl
        omega
      rw [hzero]
      exact Nat.zero_le 1

/-- A link that `relate` adds: its leg and its classes fit, it is new, and there is room at both ends. -/
theorem relate {p : Population} (h : p.LinksFit) {r : Reading} {a b : InstanceRef} (ha : p.Tracks a)
    (hb : p.Tracks b) (hr : p.HasReading r a b) (hnew : ∀ l ∈ p.links, r.joins a b l = false)
    (hleave : r.target.many = false → ∀ l ∈ p.links, r.leaves a l = false)
    (harrive : r.source.many = false → ∀ l ∈ p.links, r.arrives b l = false) :
    LinksFit { p with links := p.links ++ [r.link a b] } := by
  have hside : ∀ side, p.Tracks ((r.link a b).at side) ∧
      ((r.link a b).at side).className = (r.leg.at side).className := by
    intro side
    rcases Side.eq_or_eq_other side r.side with rfl | rfl
    · rw [Reading.link_at_side]
      exact ⟨ha, hr.source.symm⟩
    · rw [Reading.link_at_other]
      exact ⟨hb, hr.target.symm⟩
  have hfresh : r.link a b ∉ p.links := by
    intro hmem
    have hjoins := hnew _ hmem
    rw [Reading.joins_link] at hjoins
    cases hjoins
  refine ⟨fun l hl => ?_, ?_, fun i leg side hleg hmany x => ?_⟩
  · rcases List.mem_append.mp hl with hl | hl
    · exact h.typed l hl
    · rw [List.mem_singleton.mp hl]
      exact ⟨r.leg, by rw [Reading.link_leg]; exact hr.leg, hside⟩
  · rw [List.nodup_append]
    refine ⟨h.distinct, List.nodup_singleton _, ?_⟩
    rintro l hl l' hl' rfl
    rw [List.mem_singleton.mp hl'] at hl
    exact hfresh hl
  · rw [List.countP_append, List.countP_singleton]
    split
    · -- the new link is at that end, so the guard says that no other one is
      rename_i hat
      obtain ⟨hindex, hx⟩ := Link.isAt_iff.mp hat
      rw [Reading.link_leg] at hindex
      subst hindex
      have hleg' : r.leg = leg := Option.some.inj (hr.leg.symm.trans hleg)
      subst hleg'
      have hzero : p.links.countP (Link.isAt r.index side.other x) = 0 := by
        rw [List.countP_eq_zero]
        intro l hl hat'
        obtain ⟨hl1, hl2⟩ := Link.isAt_iff.mp hat'
        rcases Side.eq_or_eq_other side r.side with rfl | rfl
        · rw [Reading.link_at_other] at hx
          have hfalse := harrive hmany l hl
          simp [Reading.arrives, hl1, hl2, hx] at hfalse
        · rw [Side.other_other] at hx hl2
          rw [Reading.link_at_side] at hx
          have hfalse := hleave hmany l hl
          simp [Reading.leaves, hl1, hl2, hx] at hfalse
      rw [hzero]
    · exact h.single i leg side hleg hmany x

theorem change {p q : Population} (hc : Change p q) (h : p.LinksFit) : q.LinksFit := by
  cases hc with
  | grow hg =>
    refine h.mono hg.legs (by rw [hg.links]) fun l _ side ht => ?_
    rw [tracks_iff] at ht ⊢
    rw [hg.refs]
    exact ht
  | create className attributes =>
    refine h.mono (List.prefix_refl _) (List.Sublist.refl _) fun l _ side ht => ?_
    rw [tracks_iff] at ht ⊢
    rw [List.map_append]
    exact List.mem_append_left _ ht
  | delete r =>
    refine h.mono (List.prefix_refl _) List.filter_sublist fun l hl side ht => ?_
    have hne : l.at side ≠ r := by
      intro heq
      have htouch := (List.mem_filter.mp hl).2
      rw [Link.touches_iff.mpr ⟨side, heq⟩] at htouch
      cases htouch
    rw [tracks_iff] at ht ⊢
    obtain ⟨i, hi, hiref⟩ := List.mem_map.mp ht
    refine List.mem_map.mpr ⟨i, List.mem_filter.mpr ⟨hi, ?_⟩, hiref⟩
    rw [hiref]
    exact decide_eq_true hne
  | relate ha hb hr hnew hleave harrive => exact h.relate ha hb hr hnew hleave harrive
  | unrelate found => exact h.mono (List.prefix_refl _) List.eraseP_sublist fun _ _ _ ht => ht

end LinksFit

theorem linksFit_initial : initial.LinksFit := by
  refine ⟨fun l hl => ?_, List.nodup_nil, fun i leg side hleg => ?_⟩
  · cases hl
  · cases hleg

/-- After every history, whatever its operations, their arguments and their results, the links fit. -/
theorem linksFit_afterAll (ops : List Operation) : (initial.afterAll ops).LinksFit :=
  afterAll_induction linksFit_initial (fun _ _ hc h => h.change hc) ops

-- an owner can have many dogs and a dog one owner, so a second owner is refused in either direction
example : (initial.afterAll [.defineClass "Dog" [], .defineClass "Owner" [],
    .defineAssociation "R1" ⟨"Owner", none, false⟩ ⟨"Dog", none, true⟩, .create "Dog", .create "Owner",
    .create "Owner", .relate ⟨"Dog", 1⟩ ⟨"Owner", 2⟩ "R1" none, .relate ⟨"Owner", 3⟩ ⟨"Dog", 1⟩ "R1" none]).links =
    [⟨0, ⟨"Owner", 2⟩, ⟨"Dog", 1⟩⟩] := by decide

end Population

end ObjectAction
