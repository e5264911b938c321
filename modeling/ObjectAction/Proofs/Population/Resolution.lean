/-
Which of the declared associations can be used. To relate two instances, the relationship between their
classes has to be read in exactly one way. For an association with an id of its own and no link class that
is always so. With a link class it is so for the leg to the link class and the leg from there, unless the
link class is itself the class of an end: then one of the legs joins a class to itself, and nothing that is
checked when the association is declared makes the phrases of that leg tell its two ends apart.
-/
import ObjectAction.Proofs.Population.Navigation

namespace ObjectAction

open Model (AssociationDecl)

/-- There is no way to read the relationship, or more than one. -/
def PopulationError.isUnresolved : PopulationError → Bool
  | .unknownRelationship .. | .ambiguousRelationship .. => true
  | _ => false

namespace Population

variable {p : Population} {d : AssociationDecl}

/-- Relating the two instances does not fail for want of exactly one reading. -/
def Resolves (p : Population) (x y : InstanceRef) (id : String) (phrase : Option String) : Prop :=
  ∀ e, p.relate x y id phrase = .error e → e.isUnresolved = false

/-! ## Relating and reading -/

theorem reading_ok_iff {source target id : String} {phrase : Option String} :
    (∃ r, p.reading source target id phrase = .ok r) ↔
      ∃ r, (p.readings source target id).filter (fun r => phrase.isNone ∨ r.target.phrase = phrase) = [r] := by
  constructor
  · rintro ⟨r, h⟩
    dsimp only [reading] at h
    split at h
    · rename_i r' hfound
      exact ⟨r', hfound⟩
    · cases h
    · cases h
  · rintro ⟨r, h⟩
    exact ⟨r, reading_of_found h⟩

theorem isUnresolved_of_reading {source target id : String} {phrase : Option String} {e : PopulationError}
    (h : p.reading source target id phrase = .error e) : e.isUnresolved = true := by
  dsimp only [reading] at h
  split at h
  · cases h
  · cases h
    rfl
  · cases h
    rfl

/-- Between instances that exist, nothing but the reading can be unresolved. -/
theorem resolves_iff {x y : InstanceRef} (hx : p.Tracks x) (hy : p.Tracks y) {id : String}
    {phrase : Option String} :
    p.Resolves x y id phrase ↔ ∃ r, p.reading x.className y.className id phrase = .ok r := by
  obtain ⟨i, hi⟩ := hx
  obtain ⟨j, hj⟩ := hy
  have hrelate : p.relate x y id phrase = p.reading x.className y.className id phrase >>= fun r =>
      if p.links.any (r.joins x y) ∨ (!r.target.many ∧ p.links.any (r.leaves x))
          ∨ (!r.source.many ∧ p.links.any (r.arrives y)) then .error (.alreadyRelated x.text y.text id)
      else pure { p with links := p.links ++ [r.link x y] } := by
    simp only [relate, hi, hj, bind, Except.bind]
  unfold Resolves
  rw [hrelate]
  cases hr : p.reading x.className y.className id phrase with
  | error e =>
    constructor
    · intro h
      have hfalse := h e rfl
      rw [isUnresolved_of_reading hr] at hfalse
      cases hfalse
    · rintro ⟨r, hok⟩
      cases hok
  | ok r =>
    -- behind the reading, the only refusal is that something is related already
    refine ⟨fun _ => ⟨r, rfl⟩, fun _ e he => ?_⟩
    replace he : (if _ then _ else _) = Except.error e := he
    split at he
    · cases he
      rfl
    · cases he

/-! ## By way of a link class -/

/-- A leg from a class to itself is read in both directions. If a phrase is given that one of its ends has,
it keeps one of them exactly if the other end has another. -/
theorem kept_single_iff {index : Nat} {leg : Leg} {phrase : Option String}
    (hphrase : phrase = leg.first.phrase ∨ phrase = leg.second.phrase ∨ phrase = none) :
    (∃ r, [(⟨index, leg, .first⟩ : Reading), ⟨index, leg, .second⟩].filter
        (fun r => phrase.isNone ∨ r.target.phrase = phrase) = [r]) ↔
      phrase ≠ none ∧ leg.first.phrase ≠ leg.second.phrase := by
  have hfirst : (⟨index, leg, .first⟩ : Reading).target = leg.second := rfl
  have hsecond : (⟨index, leg, .second⟩ : Reading).target = leg.first := rfl
  simp only [List.filter_cons, List.filter_nil, hfirst, hsecond, decide_eq_true_eq]
  cases phrase with
  | none => simp
  | some f =>
    rcases hphrase with hf | hf | hf
    · by_cases hother : leg.second.phrase = some f
      · simp [← hf, hother]
      · simp [← hf, hother, eq_comm]
    · by_cases hother : leg.first.phrase = some f
      · simp [← hf, hother]
      · simp [← hf, hother]
    · cases hf

/-- From the first end to the link class. -/
theorem Sole.reading_toLink (h : p.Sole d) {link : String} (hlink : d.link = some link)
    {phrase : Option String} (hphrase : d.IsNamedBy .second phrase) :
    (∃ r, p.reading d.first.className link d.id phrase = .ok r) ↔
      link ≠ d.first.className ∨ phrase ≠ none ∧ d.first.phrase ≠ d.second.phrase := by
  obtain ⟨index, hreadings⟩ := h.readings_linked hlink
  have hne := h.className_ne hlink
  have hnamed : phrase = d.second.phrase ∨ phrase = none := hphrase.imp_right And.right
  rw [reading_ok_iff, hreadings, readingsOfLeg_eq, readingsOfLeg_eq]
  by_cases hfirst : link = d.first.className
  · -- the leg of the first end joins its class to itself
    have hkept := @kept_single_iff (index .first) (linkLeg d.id link d.first d.second) phrase (.inr hnamed)
    simpa [linkLeg, hfirst, hne, hne.symm] using hkept
  · have hone : phrase = none ∨ d.second.phrase = phrase := (hnamed.imp_left Eq.symm).symm
    simp [linkLeg, hfirst, hne.symm, Reading.target, Side.other, Leg.at, hone]

/-- From the link class to the second end. -/
theorem Sole.reading_fromLink (h : p.Sole d) {link : String} (hlink : d.link = some link)
    {phrase : Option String} (hphrase : d.IsNamedBy .second phrase) :
    (∃ r, p.reading link d.second.className d.id phrase = .ok r) ↔
      link ≠ d.second.className ∨ phrase ≠ none ∧ d.first.phrase ≠ d.second.phrase := by
  obtain ⟨index, hreadings⟩ := h.readings_linked hlink
  have hne := h.className_ne hlink
  have hnamed : phrase = d.second.phrase ∨ phrase = none := hphrase.imp_right And.right
  rw [reading_ok_iff, hreadings, readingsOfLeg_eq, readingsOfLeg_eq]
  by_cases hsecond : link = d.second.className
  · -- the leg of the second end joins its class to itself, with the phrases the other way round
    have hkept := @kept_single_iff (index .second) (linkLeg d.id link d.second d.first) phrase (hnamed.imp_right .inr)
    rw [ne_comm (a := d.first.phrase)]
    simpa [linkLeg, hsecond, hne, hne.symm] using hkept
  · have hone : phrase = none ∨ d.second.phrase = phrase := (hnamed.imp_left Eq.symm).symm
    simp [linkLeg, hsecond, hne, Reading.target, Side.other, Leg.at, hone]

/-- After every history, for an association whose id is used once and instances at its ends, the phrase of the
second end being given or, if the classes differ, left out: without a link class the instances can be related
as far as the reading goes. With one, both steps by way of a link instance can be taken exactly if the link
class is not the class of an end, or a phrase is given and the two ends have different ones. -/
theorem relate_resolves (ops : List Operation) (d : AssociationDecl)
    (hd : (initial.declaredAll ops).filter (·.id = d.id) = [d]) (a b : InstanceRef)
    (ha : (initial.afterAll ops).Tracks a) (hb : (initial.afterAll ops).Tracks b)
    (hfirst : a.className = d.first.className) (hsecond : b.className = d.second.className)
    (phrase : Option String) (hphrase : d.IsNamedBy .second phrase) :
    (d.link = none → (initial.afterAll ops).Resolves a b d.id phrase) ∧
      ∀ l, (initial.afterAll ops).Tracks l → d.link = some l.className →
        ((initial.afterAll ops).Resolves a l d.id phrase ∧ (initial.afterAll ops).Resolves l b d.id phrase ↔
          (∀ side, l.className ≠ (d.at side).className) ∨ phrase ≠ none ∧ d.first.phrase ≠ d.second.phrase) := by
  have hsole := sole_of_declared hd
  constructor
  · intro hlink
    obtain ⟨i, hreading⟩ := hsole.reading_plain hlink
    rw [resolves_iff ha hb, hfirst, hsecond]
    exact ⟨_, hreading .first phrase hphrase⟩
  · intro l hl hlink
    rw [resolves_iff ha hl, resolves_iff hl hb, hfirst, hsecond, hsole.reading_toLink hlink hphrase,
      hsole.reading_fromLink hlink hphrase, ← and_or_right]
    refine or_congr_left ⟨fun hne side => ?_, fun hne => ⟨hne .first, hne .second⟩⟩
    cases side with
    | first => exact hne.1
    | second => exact hne.2

/-- Members join a club by way of the member who vouches for them. -/
def vouches (toMember toClub : Option String) : AssociationDecl :=
  ⟨"R1", ⟨"Member", toMember, true⟩, ⟨"Club", toClub, true⟩, some "Member"⟩

/-- Two members and a club. -/
def membership (toMember toClub : Option String) : List Operation :=
  [.defineClass "Member" [], .defineClass "Club" [],
    .defineLinkedAssociation "R1" (vouches toMember toClub).first (vouches toMember toClub).second "Member",
    .create "Member", .create "Member", .create "Club"]

theorem relate_resolves_membership :
    let ops := membership (some "admits") (some "joins")
    (initial.afterAll ops).Resolves ⟨"Member", 1⟩ ⟨"Member", 2⟩ "R1" (some "joins") ∧
      (initial.afterAll ops).Resolves ⟨"Member", 2⟩ ⟨"Club", 3⟩ "R1" (some "joins") := by
  have hdeclared : (initial.declaredAll (membership (some "admits") (some "joins"))).filter
      (·.id = (vouches (some "admits") (some "joins")).id) = [vouches (some "admits") (some "joins")] := by decide
  obtain ⟨_, hlinked⟩ := relate_resolves _ _ hdeclared ⟨"Member", 1⟩ ⟨"Club", 3⟩ ⟨_, rfl⟩ ⟨_, rfl⟩ rfl rfl
    (some "joins") (.inl rfl)
  exact (hlinked ⟨"Member", 2⟩ ⟨_, rfl⟩ rfl).mpr (.inr ⟨by decide, by decide⟩)

/-- The association is accepted without phrases, the classes at its ends differ, and it cannot be used. -/
theorem relate_membership_ambiguous :
    (initial.declaredAll (membership none none)).filter (·.id = "R1") = [vouches none none] ∧
      (vouches none none).IsNamedBy .second none ∧
      (initial.afterAll (membership none none)).Tracks ⟨"Member", 1⟩ ∧
      (initial.afterAll (membership none none)).Tracks ⟨"Member", 2⟩ ∧
      (initial.afterAll (membership none none)).relate ⟨"Member", 1⟩ ⟨"Member", 2⟩ "R1" none =
        .error (.ambiguousRelationship "Member" "Member" "R1") :=
  ⟨by decide, .inl rfl, ⟨_, rfl⟩, ⟨_, rfl⟩, rfl⟩

end Population

end ObjectAction
