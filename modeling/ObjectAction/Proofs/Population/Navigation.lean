/-
Navigation and the declared associations. Whatever a navigation gives is free of repetitions and consists
of instances of the class that was asked for. Across an association whose id is used once, navigating to an
end with room for one instance gives one at most, and the two directions agree on which instances are
joined.

An association without a link class is one leg, read from either side. With a link class it is two legs that
meet there, and its ends are joined by way of link instances, unless the link class is itself the class of an
end: then one of the two legs is already a reading from end to end. The multiplicity of the association is on
neither leg as such; each leg has room for one instance at its own end, and at the link class it has the room
of the opposite end.
-/
import ObjectAction.Proofs.Population.Declarations
import ObjectAction.Proofs.Population.Links

namespace ObjectAction

open Model (AssociationDecl)

namespace Reading

/-- The same leg, followed in the other direction. -/
def back (r : Reading) : Reading := { r with side := r.side.other }

@[simp] theorem target_back (r : Reading) : r.back.target = r.source := by
  simp [back, target, source]

@[simp] theorem source_back (r : Reading) : r.back.source = r.target := rfl

theorem back_ne (r : Reading) : r.back ≠ r := by
  obtain ⟨index, leg, side⟩ := r
  cases side <;> simp [back, Side.other]

end Reading

theorem Link.ext_sides {l l' : Link} (hleg : l.leg = l'.leg) (side : Side) (hside : l.at side = l'.at side)
    (hother : l.at side.other = l'.at side.other) : l = l' := by
  obtain ⟨leg, first, second⟩ := l
  obtain ⟨leg', first', second'⟩ := l'
  cases side <;> simp_all [Link.at, Side.other]

namespace Population

variable {p : Population}

/-! ## The instances linked to one -/

theorem mem_linked {r : Reading} {a b : InstanceRef} :
    b ∈ p.linked r a ↔ ∃ l ∈ p.links, l.leg = r.index ∧ l.at r.side = a ∧ l.at r.side.other = b := by
  simp only [linked, List.mem_map, List.mem_filter, Reading.leaves, decide_eq_true_eq]
  constructor
  · rintro ⟨l, ⟨hl, hleg, ha⟩, hb⟩
    exact ⟨l, hl, hleg, ha, hb⟩
  · rintro ⟨l, hl, hleg, ha, hb⟩
    exact ⟨l, ⟨hl, hleg, ha⟩, hb⟩

theorem mem_linked_back {r : Reading} {a b : InstanceRef} : a ∈ p.linked r.back b ↔ b ∈ p.linked r a := by
  rw [mem_linked, mem_linked]
  simp only [Reading.back, Side.other_other]
  constructor
  · rintro ⟨l, hl, hleg, hb, ha⟩
    exact ⟨l, hl, hleg, ha, hb⟩
  · rintro ⟨l, hl, hleg, ha, hb⟩
    exact ⟨l, hl, hleg, hb, ha⟩

theorem LinksFit.nodup_linked (h : p.LinksFit) (r : Reading) (a : InstanceRef) : (p.linked r a).Nodup := by
  refine List.Nodup.map_on (fun l hl l' hl' hother => ?_) (h.distinct.filter _)
  simp only [List.mem_filter, Reading.leaves, decide_eq_true_eq] at hl hl'
  obtain ⟨_, hleg, ha⟩ := hl
  obtain ⟨_, hleg', ha'⟩ := hl'
  exact Link.ext_sides (hleg.trans hleg'.symm) r.side (ha.trans ha'.symm) hother

theorem LinksFit.of_mem_linked (h : p.LinksFit) {r : Reading} (hleg : p.legs[r.index]? = some r.leg)
    {a b : InstanceRef} (hb : b ∈ p.linked r a) : p.Tracks b ∧ b.className = r.target.className := by
  obtain ⟨l, hl, hindex, _, rfl⟩ := mem_linked.mp hb
  obtain ⟨leg, hlegs, hsides⟩ := h.typed l hl
  rw [hindex, hleg] at hlegs
  cases hlegs
  exact hsides r.side.other

theorem LinksFit.length_linked_le (h : p.LinksFit) {r : Reading} (hleg : p.legs[r.index]? = some r.leg)
    (hmany : r.target.many = false) (a : InstanceRef) : (p.linked r a).length ≤ 1 := by
  have hcount := h.single r.index r.leg r.side.other hleg hmany a
  rw [Side.other_other, List.countP_eq_length_filter] at hcount
  unfold linked
  rw [List.length_map]
  exact hcount

/-! ## Repetitions -/

theorem mem_distinct {rs : List InstanceRef} {r : InstanceRef} : r ∈ distinct rs ↔ r ∈ rs := by
  induction rs with
  | nil => rfl
  | cons s rs ih =>
    simp only [distinct, List.mem_cons, List.mem_filter, ih, decide_eq_true_eq]
    by_cases hrs : r = s
    · simp [hrs]
    · simp [hrs]

theorem nodup_distinct (rs : List InstanceRef) : (distinct rs).Nodup := by
  induction rs with
  | nil => exact List.nodup_nil
  | cons s rs ih =>
    refine List.nodup_cons.mpr ⟨fun hs => ?_, ih.filter _⟩
    exact absurd rfl (of_decide_eq_true (List.mem_filter.mp hs).2)

theorem length_distinct_le (rs : List InstanceRef) : (distinct rs).length ≤ rs.length := by
  induction rs with
  | nil => exact le_refl 0
  | cons s rs ih =>
    have hfilter := List.length_filter_le (fun r => decide (r ≠ s)) (distinct rs)
    simp only [distinct, List.length_cons]
    omega

theorem length_flatMap_le_one {f : InstanceRef → List InstanceRef} {rs : List InstanceRef} (hrs : rs.length ≤ 1)
    (hf : ∀ r, (f r).length ≤ 1) : (rs.flatMap f).length ≤ 1 := by
  match rs, hrs with
  | [], _ => exact Nat.zero_le 1
  | [r], _ =>
    rw [List.flatMap_singleton]
    exact hf r

/-! ## Readings -/

theorem reading_of_found {source target id : String} {phrase : Option String} {r : Reading}
    (h : (p.readings source target id).filter (fun r => phrase.isNone ∨ r.target.phrase = phrase) = [r]) :
    p.reading source target id phrase = .ok r := by
  dsimp only [reading]
  rw [h]

theorem unknown_of_reading {source target id s t i : String} {phrase f : Option String}
    (h : p.reading source target id phrase = .error (.unknownRelationship s t i f)) :
    s = source ∧ t = target ∧ i = id ∧ f = phrase := by
  dsimp only [reading] at h
  split at h
  · cases h
  · cases h
    exact ⟨rfl, rfl, rfl, rfl⟩
  · cases h

theorem reading_of_none {source target id : String} (h : p.readings source target id = [])
    (phrase : Option String) :
    p.reading source target id phrase = .error (.unknownRelationship source target id phrase) := by
  dsimp only [reading]
  rw [h, List.filter_nil]

/-- Without a phrase, no relationship is read from a class to itself: it could be read back as well. -/
theorem ne_of_reading {source target id : String} {r : Reading} (h : p.reading source target id none = .ok r) :
    source ≠ target := by
  rintro rfl
  dsimp only [reading] at h
  rw [List.filter_eq_self.mpr (by simp)] at h
  split at h
  · rename_i r' hfound
    have hr : r' ∈ p.readings source source id := by rw [hfound]; exact List.mem_singleton.mpr rfl
    have hback : r'.back ∈ p.readings source source id := by
      obtain ⟨hleg, hid, hsource, htarget⟩ := mem_readings.mp hr
      exact mem_readings.mpr ⟨hleg, hid, by rw [Reading.source_back, htarget], by rw [Reading.target_back, hsource]⟩
    rw [hfound] at hback
    exact r'.back_ne (List.mem_singleton.mp hback)
  · cases h
  · cases h

/-! ## What a navigation does -/

/-- A navigation follows one reading, or two of them that meet at a link class. -/
inductive Follows (p : Population) (a : InstanceRef) (className id : String) (phrase : Option String) :
    List InstanceRef → Prop
  | direct {r : Reading} (hr : p.reading a.className className id phrase = .ok r) :
    Follows p a className id phrase (p.linked r a)
  | across {t : Through} {toLink fromLink : Reading}
    (ht : p.through? a.className className id phrase = some t)
    (hto : p.reading a.className t.link t.id none = .ok toLink)
    (hfrom : p.reading t.link className t.id none = .ok fromLink) :
    Follows p a className id phrase (distinct ((p.linked toLink a).flatMap (p.linked fromLink)))

theorem follows_of_navigate {a : InstanceRef} {className id : String} {phrase : Option String}
    {bs : List InstanceRef} (h : p.navigate a className id phrase = .ok bs) : Follows p a className id phrase bs := by
  obtain ⟨_, _, hclass⟩ := ok_of_bind h
  obtain ⟨_, _, hreading⟩ := ok_of_bind hclass
  split at hreading
  · rename_i r hr
    cases hreading
    exact .direct hr
  · rename_i hunknown
    obtain ⟨hs, ht, hi, hf⟩ := unknown_of_reading hunknown
    rw [hs, ht, hi, hf] at hreading
    split at hreading
    · rename_i t hthrough
      obtain ⟨toLink, hto, hrest⟩ := ok_of_bind hreading
      obtain ⟨fromLink, hfrom, hlinked⟩ := ok_of_bind hrest
      cases hlinked
      exact .across hthrough hto hfrom
    · cases hreading
  · cases hreading

/-! ## Associations with an id of their own -/

/-- The legs with an id, each with its index. -/
def legsOf (p : Population) (id : String) : List (Leg × Nat) := p.legs.zipIdx.filter (·.1.id = id)

theorem map_legsOf (p : Population) (id : String) : (p.legsOf id).map Prod.fst = p.legs.filter (·.id = id) := by
  have hfst : p.legs.zipIdx.map Prod.fst = p.legs := List.zipIdx_map_fst 0 p.legs
  conv_rhs => rw [← hfst, List.filter_map]
  rfl

theorem readings_eq (p : Population) (source target id : String) :
    p.readings source target id = (p.legsOf id).flatMap fun x => readingsOfLeg source target x.1 x.2 := by
  unfold readings legsOf
  induction p.legs.zipIdx with
  | nil => rfl
  | cons x xs ih =>
    rw [List.flatMap_cons, ih, List.filter_cons]
    by_cases hid : x.1.id = id
    · simp [hid]
    · simp [hid]

theorem readingsOfLeg_eq (source target : String) (leg : Leg) (index : Nat) :
    readingsOfLeg source target leg index =
      (if leg.first.className = source ∧ leg.second.className = target then [⟨index, leg, .first⟩] else []) ++
      (if leg.second.className = source ∧ leg.first.className = target then [⟨index, leg, .second⟩] else []) := by
  have hfirst : (⟨index, leg, .first⟩ : Reading).source = leg.first ∧
      (⟨index, leg, .first⟩ : Reading).target = leg.second := ⟨rfl, rfl⟩
  have hsecond : (⟨index, leg, .second⟩ : Reading).source = leg.second ∧
      (⟨index, leg, .second⟩ : Reading).target = leg.first := ⟨rfl, rfl⟩
  simp only [readingsOfLeg, List.map_cons, List.map_nil, List.filter_cons, List.filter_nil, hfirst, hsecond,
    decide_eq_true_eq]
  split <;> rfl

/-- The association is declared and no other one has its id. -/
structure Sole (p : Population) (d : AssociationDecl) : Prop where
  fits : d.FitsIn p
  legs : p.legs.filter (·.id = d.id) = d.legs
  throughs : p.throughs.filter (·.id = d.id) = d.throughs

theorem filter_flatMap_of_id {α : Type} {f : AssociationDecl → List α} {g : α → String}
    (hg : ∀ d, ∀ x ∈ f d, g x = d.id) (id : String) (ds : List AssociationDecl) :
    (ds.flatMap f).filter (g · = id) = (ds.filter (·.id = id)).flatMap f := by
  induction ds with
  | nil => rfl
  | cons d ds ih =>
    rw [List.flatMap_cons, List.filter_append, ih, List.filter_cons]
    by_cases hid : d.id = id
    · have hall : (f d).filter (g · = id) = f d :=
        List.filter_eq_self.mpr fun x hx => decide_eq_true ((hg d x hx).trans hid)
      rw [hall, decide_eq_true hid, if_pos rfl, List.flatMap_cons]
    · have hnone : (f d).filter (g · = id) = [] :=
        List.filter_eq_nil_iff.mpr fun x hx => by simpa [hg d x hx] using hid
      rw [hnone, decide_eq_false hid]
      rfl

/-- An association whose id is used once in a history is the only one with that id afterwards. -/
theorem sole_of_declared {ops : List Operation} {d : AssociationDecl}
    (h : (initial.declaredAll ops).filter (·.id = d.id) = [d]) : (initial.afterAll ops).Sole d := by
  have hall := declares_afterAll initial ops
  have hmem : d ∈ initial.declaredAll ops := by
    have hsingle : d ∈ [d] := List.mem_singleton.mpr rfl
    rw [← h] at hsingle
    exact (List.mem_filter.mp hsingle).1
  refine ⟨hall.fits d hmem, ?_, ?_⟩
  · rw [hall.legs]
    show (List.flatMap _ _).filter _ = _
    rw [filter_flatMap_of_id (fun _ _ hx => AssociationDecl.id_of_mem_legs hx), h, List.flatMap_singleton]
  · rw [hall.throughs]
    show (List.flatMap _ _).filter _ = _
    rw [filter_flatMap_of_id (fun _ _ hx => AssociationDecl.id_of_mem_throughs hx), h, List.flatMap_singleton]

theorem Sole.mem_legs {d : AssociationDecl} (h : p.Sole d) {source target : String} {r : Reading}
    (hr : r ∈ p.readings source target d.id) : r.leg ∈ d.legs := by
  obtain ⟨hleg, hid, _, _⟩ := mem_readings.mp hr
  rw [← h.legs]
  exact List.mem_filter.mpr ⟨List.mem_of_getElem? hleg, decide_eq_true hid⟩

/-- With a link class the ends have different classes. -/
theorem Sole.className_ne {d : AssociationDecl} (h : p.Sole d) {link : String} (hlink : d.link = some link) :
    d.first.className ≠ d.second.className := by
  intro heq
  have hnone := (h.fits.reflexive heq).1
  rw [hlink] at hnone
  cases hnone

theorem Sole.side_of_className {d : AssociationDecl} (h : p.Sole d) {link : String} (hlink : d.link = some link)
    {side side' : Side} (hclass : (d.at side).className = (d.at side').className) : side = side' := by
  have hne := h.className_ne hlink
  cases side with
  | first =>
    cases side' with
    | first => rfl
    | second => exact absurd hclass hne
  | second =>
    cases side' with
    | first => exact absurd hclass.symm hne
    | second => rfl

/-- With a link class, a leg goes from one of the ends to that class. -/
theorem Sole.linkLeg_of_reading {d : AssociationDecl} (h : p.Sole d) {link : String} (hlink : d.link = some link)
    {source target : String} {r : Reading} (hr : r ∈ p.readings source target d.id) :
    ∃ near, r.leg = linkLeg d.id link (d.at near) (d.at near.other) := by
  have hleg := h.mem_legs hr
  unfold AssociationDecl.legs at hleg
  rw [hlink] at hleg
  rcases List.mem_pair.mp hleg with hleg | hleg
  · exact ⟨.first, hleg⟩
  · exact ⟨.second, hleg⟩

/-! ## Room for one instance -/

section

variable {d : AssociationDecl} {side : Side} {r : Reading}

/-- A reading from the opposite end, or from there to the link class, has room for one instance where the end
has. -/
theorem Sole.single_from (h : p.Sole d) {link : String} (hlink : d.link = some link)
    (hmany : (d.at side).many = false) {target : String}
    (hr : r ∈ p.readings (d.at side.other).className target d.id) : r.target.many = false := by
  obtain ⟨near, hleg⟩ := h.linkLeg_of_reading hlink hr
  obtain ⟨_, _, hsource, _⟩ := mem_readings.mp hr
  obtain ⟨index, leg, direction⟩ := r
  subst hleg
  cases direction with
  | first =>
    -- the leg begins at the opposite end, so that its room at the link class is the one of this end
    have hnear : near = side.other := h.side_of_className hlink hsource
    subst hnear
    show (d.at side.other.other).many = false
    rw [Side.other_other]
    exact hmany
  | second => rfl

/-- A reading from the link class to an end of another class has room for one instance. -/
theorem Sole.single_to (h : p.Sole d) {link target : String} (hlink : d.link = some link) (hne : link ≠ target)
    (hr : r ∈ p.readings link target d.id) : r.target.many = false := by
  obtain ⟨near, hleg⟩ := h.linkLeg_of_reading hlink hr
  obtain ⟨_, _, _, htarget⟩ := mem_readings.mp hr
  obtain ⟨index, leg, direction⟩ := r
  subst hleg
  cases direction with
  | first => exact absurd htarget hne
  | second => rfl

/-- Without a link class, a reading to an end arrives there; where both ends have one class, the phrase says
at which. -/
theorem Sole.single_plain (h : p.Sole d) (hlink : d.link = none) (hmany : (d.at side).many = false)
    {phrase : Option String}
    (hr : p.reading (d.at side.other).className (d.at side).className d.id phrase = .ok r)
    (hphrase : d.first.className = d.second.className → phrase = (d.at side).phrase) : r.target.many = false := by
  obtain ⟨hmem, htold⟩ := mem_of_reading hr
  have hleg := h.mem_legs hmem
  unfold AssociationDecl.legs at hleg
  rw [hlink] at hleg
  obtain ⟨_, _, hsource, _⟩ := mem_readings.mp hmem
  obtain ⟨index, leg, direction⟩ := r
  obtain rfl := List.mem_singleton.mp hleg
  have htarget : ∀ k, (⟨index, ⟨d.id, d.first, d.second⟩, k⟩ : Reading).target = d.at k.other := by
    intro k
    cases k <;> rfl
  have hat : ∀ k, (⟨index, ⟨d.id, d.first, d.second⟩, k⟩ : Reading).source = d.at k := by
    intro k
    cases k <;> rfl
  rw [htarget] at htold ⊢
  rw [hat] at hsource
  rcases Side.eq_or_eq_other direction side with rfl | rfl
  · -- the reading begins where it should end, so both ends have one class, and the phrase names the other end
    have hreflexive : d.first.className = d.second.className := by
      cases direction with
      | first => exact hsource
      | second => exact hsource.symm
    obtain ⟨_, hfirst, hsecond, hdistinct⟩ := h.fits.reflexive hreflexive
    have hp := hphrase hreflexive
    cases direction with
    | first =>
      rcases htold with hnone | hsome
      · rw [hp] at hnone
        exact absurd hfirst (by simp [AssociationDecl.at] at hnone; simp [hnone])
      · exact absurd (hsome.trans hp).symm hdistinct
    | second =>
      rcases htold with hnone | hsome
      · rw [hp] at hnone
        exact absurd hsecond (by simp [AssociationDecl.at] at hnone; simp [hnone])
      · exact absurd (hsome.trans hp) hdistinct
  · rw [Side.other_other]
    exact hmany

/-- The only way across a link class under this id is the one of the association. -/
theorem Sole.of_through? (h : p.Sole d) {source target : String} {phrase : Option String} {t : Through}
    (ht : p.through? source target d.id phrase = some t) : d.link = some t.link ∧ t.id = d.id := by
  have hid : t.id = d.id := by
    have hfound := List.find?_some ht
    simp only [decide_eq_true_eq] at hfound
    exact hfound.1
  have hmem : t ∈ d.throughs := by
    rw [← h.throughs]
    exact List.mem_filter.mpr ⟨List.mem_of_find?_eq_some ht, decide_eq_true hid⟩
  unfold AssociationDecl.throughs at hmem
  split at hmem
  · cases hmem
  · rename_i link hlink
    obtain rfl := List.mem_singleton.mp hmem
    exact ⟨hlink, rfl⟩

/-- Navigating to an end with room for one instance gives one at most. -/
theorem Sole.length_le_one (h : p.Sole d) (hfit : p.LinksFit) (hmany : (d.at side).many = false)
    {a : InstanceRef} (ha : a.className = (d.at side.other).className) {phrase : Option String}
    (hphrase : d.first.className = d.second.className → phrase = (d.at side).phrase) {bs : List InstanceRef}
    (hbs : Follows p a (d.at side).className d.id phrase bs) : bs.length ≤ 1 := by
  cases hbs with
  | direct hr =>
    rw [ha] at hr
    obtain ⟨hmem, _⟩ := mem_of_reading hr
    refine hfit.length_linked_le (mem_readings.mp hmem).1 ?_ a
    cases hlink : d.link with
    | none => exact h.single_plain hlink hmany hr hphrase
    | some link => exact h.single_from hlink hmany hmem
  | across ht hto hfrom =>
    obtain ⟨hlink, hid⟩ := h.of_through? ht
    rw [hid] at hto hfrom
    rw [ha] at hto
    obtain ⟨hmemTo, _⟩ := mem_of_reading hto
    obtain ⟨hmemFrom, _⟩ := mem_of_reading hfrom
    refine (length_distinct_le _).trans (length_flatMap_le_one ?_ fun l => ?_)
    · exact hfit.length_linked_le (mem_readings.mp hmemTo).1 (h.single_from hlink hmany hmemTo) a
    · exact hfit.length_linked_le (mem_readings.mp hmemFrom).1 (h.single_to hlink (ne_of_reading hfrom) hmemFrom) l

end

theorem nodup_of_follows (hfit : p.LinksFit) {a : InstanceRef} {className id : String} {phrase : Option String}
    {bs : List InstanceRef} (h : Follows p a className id phrase bs) : bs.Nodup := by
  cases h with
  | direct hr => exact hfit.nodup_linked _ a
  | across ht hto hfrom => exact nodup_distinct _

theorem tracks_of_follows (hfit : p.LinksFit) {a b : InstanceRef} {className id : String} {phrase : Option String}
    {bs : List InstanceRef} (h : Follows p a className id phrase bs) (hb : b ∈ bs) :
    p.Tracks b ∧ b.className = className := by
  cases h with
  | direct hr =>
    obtain ⟨hleg, _, _, htarget⟩ := mem_readings.mp (mem_of_reading hr).1
    obtain ⟨htracks, hclass⟩ := hfit.of_mem_linked hleg hb
    exact ⟨htracks, hclass.trans htarget⟩
  | across ht hto hfrom =>
    obtain ⟨l, _, hb⟩ := List.mem_flatMap.mp (mem_distinct.mp hb)
    obtain ⟨hleg, _, _, htarget⟩ := mem_readings.mp (mem_of_reading hfrom).1
    obtain ⟨htracks, hclass⟩ := hfit.of_mem_linked hleg hb
    exact ⟨htracks, hclass.trans htarget⟩

/-- After every history, a navigation gives instances of the class that was asked for, each once. If one
association has the id, the navigation begins at one of its ends and the other end has room for one instance,
it gives one at most; where both ends have the same class, the other end is the one that the phrase names. -/
theorem navigate_fits (ops : List Operation) (a : InstanceRef) (className id : String) (phrase : Option String)
    (bs : List InstanceRef) (h : (initial.afterAll ops).navigate a className id phrase = .ok bs) :
    bs.Nodup ∧ (∀ b ∈ bs, (initial.afterAll ops).Tracks b ∧ b.className = className) ∧
      ∀ (d : AssociationDecl) (side : Side), (initial.declaredAll ops).filter (·.id = id) = [d] →
        a.className = (d.at side.other).className → className = (d.at side).className →
        (d.first.className = d.second.className → phrase = (d.at side).phrase) →
        (d.at side).many = false → bs.length ≤ 1 := by
  have hfit : (initial.afterAll ops).LinksFit :=
    afterAll_induction linksFit_initial (fun _ _ hc h => h.change hc) ops
  have hfollows := follows_of_navigate h
  refine ⟨nodup_of_follows hfit hfollows, fun b hb => tracks_of_follows hfit hfollows hb, ?_⟩
  intro d side hsole ha hclass hphrase hmany
  have hid : d.id = id := by
    have hmem : d ∈ [d] := List.mem_singleton.mpr rfl
    rw [← hsole] at hmem
    exact of_decide_eq_true (List.mem_filter.mp hmem).2
  subst hid hclass
  exact (sole_of_declared hsole).length_le_one hfit hmany ha hphrase hfollows

/-- Persons work for one company each, by way of their jobs. -/
def employs : AssociationDecl :=
  ⟨"R1", ⟨"Person", some "employs", true⟩, ⟨"Company", some "works for", false⟩, some "Job"⟩

/-- One company with two persons. -/
def employment : List Operation :=
  [.defineClass "Person" [], .defineClass "Company" [], .defineClass "Job" [],
    .defineLinkedAssociation employs.id employs.first employs.second "Job",
    .create "Company", .create "Person", .create "Job", .create "Person", .create "Job",
    .relate ⟨"Person", 2⟩ ⟨"Job", 3⟩ "R1" none, .relate ⟨"Job", 3⟩ ⟨"Company", 1⟩ "R1" none,
    .relate ⟨"Person", 4⟩ ⟨"Job", 5⟩ "R1" none, .relate ⟨"Company", 1⟩ ⟨"Job", 5⟩ "R1" none]

theorem navigate_fits_employment :
    (initial.afterAll employment).navigate ⟨"Person", 4⟩ "Company" "R1" none = .ok [⟨"Company", 1⟩] ∧
      [(⟨"Company", 1⟩ : InstanceRef)].length ≤ 1 := by
  have hnavigate : (initial.afterAll employment).navigate ⟨"Person", 4⟩ "Company" "R1" none =
      .ok [⟨"Company", 1⟩] := by decide
  obtain ⟨_, _, hone⟩ := navigate_fits employment _ _ _ _ _ hnavigate
  exact ⟨hnavigate, hone employs .second (by decide) rfl rfl (fun h => absurd h (by decide)) rfl⟩

/-! ## Both directions -/

theorem navigate_direct {a : InstanceRef} {className id : String} {phrase : Option String} {r : Reading}
    (ha : p.Tracks a) (hclass : Table.has p.classes className = true)
    (hr : p.reading a.className className id phrase = .ok r) :
    p.navigate a className id phrase = .ok (p.linked r a) := by
  obtain ⟨i, hi⟩ := ha
  obtain ⟨c, hc⟩ := classDef_of_has hclass
  simp only [navigate, hi, hc, hr, bind, Except.bind, pure, Except.pure]

theorem navigate_across {a : InstanceRef} {className id : String} {phrase : Option String} {t : Through}
    {toLink fromLink : Reading} (ha : p.Tracks a) (hclass : Table.has p.classes className = true)
    (hnone : p.readings a.className className id = [])
    (ht : p.through? a.className className id phrase = some t)
    (hto : p.reading a.className t.link t.id none = .ok toLink)
    (hfrom : p.reading t.link className t.id none = .ok fromLink) :
    p.navigate a className id phrase = .ok (distinct ((p.linked toLink a).flatMap (p.linked fromLink))) := by
  obtain ⟨i, hi⟩ := ha
  obtain ⟨c, hc⟩ := classDef_of_has hclass
  simp only [navigate, navigateThrough, hi, hc, reading_of_none hnone, ht, hto, hfrom, bind, Except.bind, pure,
    Except.pure]

end Population

/-- The phrase is the one of that end, or it is left out and the classes tell the ends apart. -/
def Model.AssociationDecl.IsNamedBy (d : AssociationDecl) (side : Side) (phrase : Option String) : Prop :=
  phrase = (d.at side).phrase ∨ d.first.className ≠ d.second.className ∧ phrase = none

/-- A relation from the first end to the second, seen from either of them. -/
def Side.sees (joined : InstanceRef → InstanceRef → Prop) : Side → InstanceRef → InstanceRef → Prop
  | .first, x, y => joined x y
  | .second, x, y => joined y x

namespace Population

variable {p : Population} {d : AssociationDecl}

/-- From either end a navigation succeeds, and both compute one relation between the instances at the ends. -/
def Agrees (p : Population) (d : AssociationDecl) : Prop :=
  ∃ joined : InstanceRef → InstanceRef → Prop, ∀ (side : Side) (x : InstanceRef) (phrase : Option String),
    p.Tracks x → x.className = (d.at side).className → d.IsNamedBy side.other phrase →
      ∃ ys, p.navigate x (d.at side.other).className d.id phrase = .ok ys ∧
        ∀ y, y ∈ ys ↔ side.sees joined x y

/-- One reading from the end on `side` to the other one, which is also the way back. -/
theorem Sole.agrees_direct (h : p.Sole d) (side : Side) (r : Reading)
    (hto : ∀ phrase, d.IsNamedBy side.other phrase →
      p.reading (d.at side).className (d.at side.other).className d.id phrase = .ok r)
    (hback : ∀ phrase, d.IsNamedBy side phrase →
      p.reading (d.at side.other).className (d.at side).className d.id phrase = .ok r.back) : Agrees p d := by
  refine ⟨fun a b => side.sees (fun x y => y ∈ p.linked r x) a b, fun k x phrase hx hclass hphrase => ?_⟩
  rcases Side.eq_or_eq_other k side with rfl | rfl
  · rw [← hclass] at hto
    refine ⟨p.linked r x, navigate_direct hx (h.fits.classes _) (hto phrase hphrase), fun y => ?_⟩
    cases k <;> exact Iff.rfl
  · rw [← hclass] at hback
    rw [Side.other_other] at hphrase ⊢
    refine ⟨p.linked r.back x, navigate_direct hx (h.fits.classes _) (hback phrase hphrase), fun y => ?_⟩
    cases side <;> exact mem_linked_back

theorem Sole.readings_plain (h : p.Sole d) (hlink : d.link = none) :
    ∃ i, ∀ source target, p.readings source target d.id =
      readingsOfLeg source target ⟨d.id, d.first, d.second⟩ i := by
  have hlegs := map_legsOf p d.id
  rw [h.legs, AssociationDecl.legs, hlink] at hlegs
  obtain ⟨⟨leg, i⟩, hone, hleg⟩ := List.map_eq_singleton_iff.mp hlegs
  refine ⟨i, fun source target => ?_⟩
  rw [readings_eq, hone, List.flatMap_singleton]
  exact congrArg (readingsOfLeg source target · i) hleg

/-- Without a link class, the leg is read in each direction when the end there is named. -/
theorem Sole.reading_plain (h : p.Sole d) (hlink : d.link = none) :
    ∃ i, ∀ side phrase, d.IsNamedBy side.other phrase →
      p.reading (d.at side).className (d.at side.other).className d.id phrase =
        .ok ⟨i, ⟨d.id, d.first, d.second⟩, side⟩ := by
  obtain ⟨i, hreadings⟩ := h.readings_plain hlink
  refine ⟨i, fun side phrase hphrase => reading_of_found ?_⟩
  rw [hreadings, readingsOfLeg_eq]
  by_cases hclass : d.first.className = d.second.className
  · -- both directions are readings, and the phrase keeps the one that it names
    obtain ⟨_, hfirst, hsecond, hdistinct⟩ := h.fits.reflexive hclass
    have hp : phrase = (d.at side.other).phrase := hphrase.resolve_right fun hn => hn.1 hclass
    cases side with
    | first =>
      have hsome : d.second.phrase ≠ none := Option.isSome_iff_ne_none.mp hsecond
      simp [hp, AssociationDecl.at, Side.other, hclass, Reading.target, Leg.at, hdistinct, hsome]
    | second =>
      have hsome : d.first.phrase ≠ none := Option.isSome_iff_ne_none.mp hfirst
      simp [hp, AssociationDecl.at, Side.other, hclass, Reading.target, Leg.at, hdistinct.symm, hsome]
  · have hclass' : d.second.className ≠ d.first.className := fun heq => hclass heq.symm
    cases side with
    | first =>
      rcases hphrase with rfl | ⟨_, rfl⟩ <;>
        simp [AssociationDecl.at, Side.other, hclass, hclass', Reading.target, Leg.at]
    | second =>
      rcases hphrase with rfl | ⟨_, rfl⟩ <;>
        simp [AssociationDecl.at, Side.other, hclass, hclass', Reading.target, Leg.at]

theorem Sole.agrees_plain (h : p.Sole d) (hlink : d.link = none) : Agrees p d := by
  obtain ⟨i, hreading⟩ := h.reading_plain hlink
  exact h.agrees_direct .first _ (hreading .first) (hreading .second)

/-- The leg from the end on `side` to the link class. -/
def linkReading (d : AssociationDecl) (link : String) (index : Side → Nat) (side : Side) : Reading :=
  ⟨index side, linkLeg d.id link (d.at side) (d.at side.other), .first⟩

theorem Sole.readings_linked (h : p.Sole d) {link : String} (hlink : d.link = some link) :
    ∃ index : Side → Nat, ∀ source target, p.readings source target d.id =
      readingsOfLeg source target (linkLeg d.id link d.first d.second) (index .first) ++
      readingsOfLeg source target (linkLeg d.id link d.second d.first) (index .second) := by
  have hlegs := map_legsOf p d.id
  rw [h.legs, AssociationDecl.legs, hlink] at hlegs
  obtain ⟨⟨l₁, i⟩, rest, hplaced, hl₁, hrest⟩ := List.map_eq_cons_iff.mp hlegs
  obtain ⟨⟨l₂, j⟩, rfl, hl₂⟩ := List.map_eq_singleton_iff.mp hrest
  refine ⟨fun side => if side = .first then i else j, fun source target => ?_⟩
  rw [readings_eq, hplaced, List.flatMap_cons, List.flatMap_singleton, ← hl₁, ← hl₂]
  rfl

/-- If the link class is the class of one end, the leg of the other end goes there. -/
theorem Sole.agrees_linkAtEnd (h : p.Sole d) (side : Side) (hlink : d.link = some (d.at side.other).className) :
    Agrees p d := by
  obtain ⟨index, hreadings⟩ := h.readings_linked hlink
  have hne := h.className_ne hlink
  have hne' := hne.symm
  refine h.agrees_direct side (linkReading d (d.at side.other).className index side) (fun phrase hphrase => ?_)
    fun phrase hphrase => ?_
  · refine reading_of_found ?_
    rw [hreadings, readingsOfLeg_eq, readingsOfLeg_eq]
    cases side with
    | first =>
      rcases hphrase with rfl | ⟨_, rfl⟩ <;>
        simp [AssociationDecl.at, Side.other, linkLeg, hne, hne', Reading.target, Leg.at, linkReading]
    | second =>
      rcases hphrase with rfl | ⟨_, rfl⟩ <;>
        simp [AssociationDecl.at, Side.other, linkLeg, hne, hne', Reading.target, Leg.at, linkReading]
  · refine reading_of_found ?_
    rw [hreadings, readingsOfLeg_eq, readingsOfLeg_eq]
    cases side with
    | first =>
      rcases hphrase with rfl | ⟨_, rfl⟩ <;>
        simp [AssociationDecl.at, Side.other, linkLeg, hne, hne', Reading.target, Leg.at, linkReading, Reading.back]
    | second =>
      rcases hphrase with rfl | ⟨_, rfl⟩ <;>
        simp [AssociationDecl.at, Side.other, linkLeg, hne, hne', Reading.target, Leg.at, linkReading, Reading.back]

theorem Sole.through?_eq (h : p.Sole d) {link : String} (hlink : d.link = some link) (side : Side)
    {phrase : Option String} (hphrase : d.IsNamedBy side.other phrase) :
    p.through? (d.at side).className (d.at side.other).className d.id phrase =
      some ⟨d.id, d.first, d.second, link⟩ := by
  have hne := h.className_ne hlink
  have hne' := hne.symm
  have hthroughs := h.throughs
  rw [AssociationDecl.throughs, hlink] at hthroughs
  have hfind : ∀ q : Through → Bool, p.throughs.find? (fun t => decide (t.id = d.id ∧ q t = true)) =
      (p.throughs.filter (·.id = d.id)).find? q := by
    intro q
    rw [List.find?_filter]
    simp only [decide_eq_true_eq]
  refine (hfind _).trans ?_
  rw [hthroughs]
  cases side with
  | first => rcases hphrase with rfl | ⟨_, rfl⟩ <;> simp [AssociationDecl.at, Side.other]
  | second => rcases hphrase with rfl | ⟨_, rfl⟩ <;> simp [AssociationDecl.at, Side.other, hne, hne']

/-- If the link class is that of neither end, each leg is read from its end to the link class and back, and nothing
leads from end to end. -/
structure ReadsAcross (p : Population) (d : AssociationDecl) (link : String) (index : Side → Nat) : Prop where
  ends : ∀ side, p.readings (d.at side).className (d.at side.other).className d.id = []
  toLink : ∀ side, p.readings (d.at side).className link d.id = [linkReading d link index side]
  fromLink : ∀ side, p.readings link (d.at side).className d.id = [(linkReading d link index side).back]

theorem Sole.readsAcross (h : p.Sole d) {link : String} (hlink : d.link = some link)
    (hfirst : link ≠ d.first.className) (hsecond : link ≠ d.second.className) :
    ∃ index, p.ReadsAcross d link index := by
  obtain ⟨index, hreadings⟩ := h.readings_linked hlink
  have hne := h.className_ne hlink
  refine ⟨index, fun side => ?_, fun side => ?_, fun side => ?_⟩ <;> rw [hreadings, readingsOfLeg_eq, readingsOfLeg_eq]
  · cases side <;> simp [AssociationDecl.at, Side.other, linkLeg, hfirst, hsecond]
  · cases side <;>
      simp [AssociationDecl.at, Side.other, linkLeg, hfirst, hsecond, hne, hne.symm, linkReading]
  · cases side <;>
      simp [AssociationDecl.at, Side.other, linkLeg, hfirst.symm, hsecond.symm, hne, hne.symm, linkReading,
        Reading.back]

/-- The only reading is the one without a phrase. -/
theorem reading_of_readings {source target id : String} {r : Reading} (h : p.readings source target id = [r]) :
    p.reading source target id none = .ok r :=
  reading_of_found (by rw [h]; simp)

/-- Then a navigation from end to end goes across the link instances. -/
theorem Sole.navigate_ends (h : p.Sole d) {link : String} (hlink : d.link = some link) {index : Side → Nat}
    (hreads : p.ReadsAcross d link index) {side : Side} {x : InstanceRef} {phrase : Option String} (hx : p.Tracks x)
    (hclass : x.className = (d.at side).className) (hphrase : d.IsNamedBy side.other phrase) :
    p.navigate x (d.at side.other).className d.id phrase =
      .ok (distinct ((p.linked (linkReading d link index side) x).flatMap
        (p.linked (linkReading d link index side.other).back))) := by
  apply navigate_across hx (h.fits.classes _)
  · rw [hclass]
    exact hreads.ends side
  · rw [hclass]
    exact h.through?_eq hlink side hphrase
  · rw [hclass]
    exact reading_of_readings (hreads.toLink side)
  · exact reading_of_readings (hreads.fromLink side.other)

/-- Otherwise the ends are joined by way of the link instances that the two legs share. -/
theorem Sole.agrees_across (h : p.Sole d) {link : String} (hlink : d.link = some link)
    (hfirst : link ≠ d.first.className) (hsecond : link ≠ d.second.className) : Agrees p d := by
  obtain ⟨index, hreads⟩ := h.readsAcross hlink hfirst hsecond
  refine ⟨fun a b => ∃ l, l ∈ p.linked (linkReading d link index .first) a ∧
    l ∈ p.linked (linkReading d link index .second) b, fun side x phrase hx hclass hphrase => ?_⟩
  refine ⟨_, h.navigate_ends hlink hreads hx hclass hphrase, fun y => ?_⟩
  simp only [mem_distinct, List.mem_flatMap, mem_linked_back]
  cases side with
  | first => exact Iff.rfl
  | second =>
    constructor
    · rintro ⟨l, hx, hy⟩
      exact ⟨l, hy, hx⟩
    · rintro ⟨l, hy, hx⟩
      exact ⟨l, hx, hy⟩

theorem Sole.agrees (h : p.Sole d) : Agrees p d := by
  cases hlink : d.link with
  | none => exact h.agrees_plain hlink
  | some link =>
    by_cases hfirst : link = d.first.className
    · exact h.agrees_linkAtEnd .second (by rw [hlink, hfirst]; rfl)
    · by_cases hsecond : link = d.second.className
      · exact h.agrees_linkAtEnd .first (by rw [hlink, hsecond]; rfl)
      · exact h.agrees_across hlink hfirst hsecond

/-- After every history, for an association whose id is used once: navigating from an instance at one end to
the other end succeeds, the phrase of the end there being given or, if the classes differ, left out, and it
reaches an instance exactly if navigating back from that one does. -/
theorem navigate_symmetric (ops : List Operation) (d : AssociationDecl)
    (hd : (initial.declaredAll ops).filter (·.id = d.id) = [d]) (a b : InstanceRef)
    (ha : (initial.afterAll ops).Tracks a) (hb : (initial.afterAll ops).Tracks b)
    (hfirst : a.className = d.first.className) (hsecond : b.className = d.second.className)
    (toSecond toFirst : Option String) (hto : d.IsNamedBy .second toSecond) (hback : d.IsNamedBy .first toFirst) :
    ∃ bs as, (initial.afterAll ops).navigate a d.second.className d.id toSecond = .ok bs ∧
      (initial.afterAll ops).navigate b d.first.className d.id toFirst = .ok as ∧ (b ∈ bs ↔ a ∈ as) := by
  obtain ⟨joined, hjoined⟩ := (sole_of_declared hd).agrees
  obtain ⟨bs, hbs, hmem⟩ := hjoined .first a toSecond ha hfirst hto
  obtain ⟨as, has, hmem'⟩ := hjoined .second b toFirst hb hsecond hback
  exact ⟨bs, as, hbs, has, (hmem b).trans (hmem' a).symm⟩

theorem navigate_symmetric_employment :
    (initial.declaredAll employment).filter (·.id = employs.id) = [employs] ∧
      ∃ bs as, (initial.afterAll employment).navigate ⟨"Person", 4⟩ "Company" "R1" (some "works for") = .ok bs ∧
        (initial.afterAll employment).navigate ⟨"Company", 1⟩ "Person" "R1" none = .ok as ∧
        (⟨"Company", 1⟩ ∈ bs ↔ ⟨"Person", 4⟩ ∈ as) := by
  have hdeclared : (initial.declaredAll employment).filter (·.id = employs.id) = [employs] := by decide
  exact ⟨hdeclared, navigate_symmetric employment employs hdeclared _ _ ⟨_, rfl⟩ ⟨_, rfl⟩ rfl rfl _ _ (.inl rfl)
    (.inr ⟨by decide, rfl⟩)⟩

end Population

end ObjectAction
