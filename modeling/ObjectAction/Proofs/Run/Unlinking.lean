/-
Taking back what was related by way of a link instance. Both links are new when they are made, so each of them is
the one that is found when it is taken away again, whichever legs they lie on: the statement that unrelates restores
the state in which the other one was executed. In between, the link instance is found from the first instance, and
each of the two ends from the other.

Main statement: `Linking.unrelate_restores`.
-/
import ObjectAction.Proofs.Population.Relating
import ObjectAction.Proofs.Run.Linking

namespace ObjectAction

open Model (AssociationDecl)

namespace Population

variable {p q q' : Population} {a b l : InstanceRef} {id : String} {phrase : Option String}

/-- Two links that were made one after the other can be taken away in the same order. -/
theorem unrelate_relate_relate (hfirst : p.relate a l id phrase = .ok q) (hsecond : q.relate l b id phrase = .ok q') :
    ∃ q₁, q'.unrelate a l id phrase = .ok q₁ ∧ q₁.unrelate l b id phrase = .ok p := by
  obtain ⟨r₁, ha, hl, hr₁, hnew₁, -, -, rfl⟩ := relate_ok hfirst
  obtain ⟨r₂, -, hb, hr₂, hnew₂, -, -, rfl⟩ := relate_ok hsecond
  have hr : p.reading l.className b.className id phrase = .ok r₂ := (reading_congr rfl _ _ _ _).symm.trans hr₂
  have hnew : ∀ x ∈ p.links, r₂.joins l b x = false := fun x hx => hnew₂ x (List.mem_append_left _ hx)
  refine ⟨{ p with links := p.links ++ [r₂.link l b] }, ?_, ?_⟩
  · dsimp only
    rw [List.append_assoc]
    exact unrelate_link ha hl hr₁ hnew₁ [r₂.link l b]
  · rw [unrelate_link hl hb hr hnew [], List.append_nil]

/-- A navigation without a phrase from `x` to the class of `y` reaches `y`. -/
def LeadsTo (p : Population) (x : InstanceRef) (id : String) (y : InstanceRef) : Prop :=
  ∃ ys, p.navigate x y.className id none = .ok ys ∧ y ∈ ys

theorem mem_linked_of_link {r : Reading} (h : r.link a b ∈ p.links) : b ∈ p.linked r a :=
  mem_linked.mpr ⟨_, h, r.link_leg a b, r.link_at_side a b, r.link_at_other a b⟩

/-- With a link class that is the class of neither end: an instance of it and an instance at each end, of which one
leads to the link instance and that one to the other, are found from each other. -/
theorem Sole.leadsTo_across {d : AssociationDecl} (h : p.Sole d) (hclass : Table.has p.classes l.className = true)
    (hlink : d.link = some l.className) {side : Side} (ha : a.className = (d.at side).className)
    (hb : b.className = (d.at side.other).className) {index : Side → Nat}
    (hreads : p.ReadsAcross d l.className index) (hta : p.Tracks a) (htb : p.Tracks b)
    (hl : l ∈ p.linked (linkReading d l.className index side) a)
    (hl' : l ∈ p.linked (linkReading d l.className index side.other) b) :
    p.LeadsTo a d.id l ∧ p.LeadsTo a d.id b ∧ p.LeadsTo b d.id a := by
  have hnamed : ∀ k, d.IsNamedBy k none := fun _ => .inr ⟨h.className_ne hlink, rfl⟩
  refine ⟨?_, ?_, ?_⟩
  · refine ⟨_, navigate_direct hta hclass (reading_of_readings ?_), hl⟩
    rw [ha]
    exact hreads.toLink side
  · have hnavigate := h.navigate_ends hlink hreads hta ha (hnamed side.other)
    rw [← hb] at hnavigate
    exact ⟨_, hnavigate, mem_distinct.mpr (List.mem_flatMap.mpr ⟨l, hl, mem_linked_back.mpr hl'⟩)⟩
  · have hnavigate := h.navigate_ends hlink hreads htb hb (hnamed side.other.other)
    rw [Side.other_other, ← ha] at hnavigate
    exact ⟨_, hnavigate, mem_distinct.mpr (List.mem_flatMap.mpr ⟨l, hl', mem_linked_back.mpr hl⟩)⟩

/-- After the two links are made, all three instances are found across the association. -/
theorem Sole.leadsTo_of_relate {d : AssociationDecl} (h : p.Sole d) (hclass : Table.has p.classes l.className = true)
    (hlink : d.link = some l.className) {side : Side} (ha : a.className = (d.at side).className)
    (hb : b.className = (d.at side.other).className) (hla : l.className ≠ a.className)
    (hlb : l.className ≠ b.className) (hfirst : p.relate a l d.id phrase = .ok q)
    (hsecond : q.relate l b d.id phrase = .ok q') :
    q'.LeadsTo a d.id l ∧ q'.LeadsTo a d.id b ∧ q'.LeadsTo b d.id a := by
  obtain ⟨r₁, hta, -, hr₁, -, -, -, rfl⟩ := relate_ok hfirst
  obtain ⟨r₂, -, htb, hr₂, -, -, -, hq'⟩ := relate_ok hsecond
  have hsole : q'.Sole d := hq' ▸ ⟨⟨h.fits.classes, h.fits.reflexive⟩, h.legs, h.throughs⟩
  have hends : l.className ≠ d.first.className ∧ l.className ≠ d.second.className := by
    rw [ha] at hla
    rw [hb] at hlb
    cases side with
    | first => exact ⟨hla, hlb⟩
    | second => exact ⟨hlb, hla⟩
  obtain ⟨index, hreads⟩ := hsole.readsAcross hlink hends.1 hends.2
  have hreadings : ∀ source target, p.readings source target d.id = q'.readings source target d.id := by
    intro source target
    rw [hq']
    rfl
  -- each new link lies on the leg of its end
  obtain rfl : r₁ = linkReading d l.className index side := by
    have hmem := (mem_of_reading hr₁).1
    rw [ha, hreadings, hreads.toLink] at hmem
    exact List.mem_singleton.mp hmem
  obtain rfl : r₂ = (linkReading d l.className index side.other).back := by
    have hmem : r₂ ∈ p.readings l.className b.className d.id := (mem_of_reading hr₂).1
    rw [hb, hreadings, hreads.fromLink] at hmem
    exact List.mem_singleton.mp hmem
  have hlinks : ∀ x ∈ [(linkReading d l.className index side).link a l,
      (linkReading d l.className index side.other).back.link l b], x ∈ q'.links := by
    intro x hx
    rw [hq']
    simp only [List.append_assoc]
    exact List.mem_append_right _ hx
  refine hsole.leadsTo_across (hq' ▸ hclass) hlink ha hb hreads (hq' ▸ hta) (hq' ▸ htb)
    (mem_linked_of_link (hlinks _ (by simp))) ?_
  exact mem_linked_back.mp (mem_linked_of_link (hlinks _ (by simp)))

end Population

namespace Linking

open Run

variable {k : Linking} {s s' : RunState} {source target link : String} {relationship : Relationship}
  {a b l : InstanceRef} {q q' : Population}

/-- The operations change nothing but links, so a name stands for the same instance. -/
theorem holds_of_operation {name id : String} {phrase : Option String} {r : InstanceRef} (h : s.Holds name r)
    (hoperation : k.operation s.population a b id phrase = .ok q) :
    RunState.Holds { s with population := q } name r := by
  obtain ⟨_, -, rfl, -⟩ := operation_ok hoperation
  exact h

/-- Where both operations can be done, the statement does them. -/
theorem exec_both (ha : s.Holds source a) (hb : s.Holds target b) (hl : s.Holds link l)
    (hfirst : k.operation s.population a l relationship.id relationship.phrase = .ok q)
    (hsecond : k.operation q l b relationship.id relationship.phrase = .ok q') (host : Host) (fuel : Nat)
    (extent : Extent) :
    exec host (fuel + 1) (k.statement extent source target relationship link) s =
      .done .normal { s with population := q' } := by
  have hcalls : acrossLink k.operation source target relationship (some link) s =
      .done () { s with population := q' } := by
    refine (bind_done (readRef_of_holds ha)).trans ((bind_done (readRef_of_holds hb)).trans ?_)
    refine (bind_done (readRef_of_holds hl)).trans ?_
    rw [bind_done (change_ok hfirst)]
    exact change_ok hsecond
  unfold exec execStep recover
  rw [execForm_statement, bind_done hcalls]
  rfl

end Linking

open Linking Run Population in
/-- In every state: if the statement that relates two instances by way of a third is executed and reports nothing, the
one that unrelates them, with the same phrase, can be executed in the state after it, reports nothing and restores the
state before it. And if the state before has a history in which one association alone has that id, and that is one
between the classes of the two instances with the class of the third as its link class, another than theirs, then in
the state between the two the link instance is found from the first instance, and each of the two from the other. -/
theorem Linking.unrelate_restores (host : Host) (fuel fuel' : Nat) (extent extent' : Extent)
    (source target : String) (relationship : Relationship) (link : String) (s s' : RunState)
    (hexec : exec host (fuel + 1) (relate.statement extent source target relationship link) s =
      .done .normal s') (hquiet : s'.journal = s.journal) :
    ∃ a b l, s.Holds source a ∧ s.Holds target b ∧ s.Holds link l ∧
      exec host (fuel' + 1) (unrelate.statement extent' source target relationship link) s' =
        .done .normal s ∧
      ∀ ops d side, s.population = initial.afterAll ops →
        (initial.declaredAll ops).filter (·.id = relationship.id) = [d] → d.link = some l.className →
        a.className = (d.at side).className → b.className = (d.at side.other).className →
        l.className ≠ a.className → l.className ≠ b.className →
        s'.population.LeadsTo a relationship.id l ∧ s'.population.LeadsTo a relationship.id b ∧
          s'.population.LeadsTo b relationship.id a := by
  obtain ⟨s₁, hexec₁, hends⟩ := exec_statement host fuel extent source target relationship link s
  obtain rfl : s₁ = s' := by
    rw [hexec₁] at hexec
    cases hexec
    rfl
  cases hends with
  | neither f => exact absurd hquiet (by simp)
  | half ha hb hl first second => exact absurd hquiet (by simp)
  | @both a b l q q' ha hb hl first second =>
    refine ⟨a, b, l, ha, hb, hl, ?_, ?_⟩
    · obtain ⟨q₁, hfirst, hsecond⟩ := unrelate_relate_relate first second
      have hholds : ∀ name r, s.Holds name r → RunState.Holds { s with population := q' } name r := by
        intro name r h
        have hbetween : RunState.Holds { s with population := q } name r := holds_of_operation (k := relate) h first
        exact holds_of_operation (k := relate) (s := { s with population := q }) hbetween second
      exact exec_both (k := unrelate) (hholds _ _ ha) (hholds _ _ hb) (hholds _ _ hl) hfirst hsecond host fuel'
        extent'
    · intro ops d side hops hd hlink hda hdb hla hlb
      have hid : d.id = relationship.id := by
        have hmem : d ∈ (initial.declaredAll ops).filter (·.id = relationship.id) := by
          rw [hd]
          exact List.mem_singleton.mpr rfl
        exact of_decide_eq_true (List.mem_filter.mp hmem).2
      rw [← hid] at hd first second ⊢
      obtain ⟨_, -, htl, -⟩ := relate_ok first
      rw [hops] at first htl
      exact (sole_of_declared hd).leadsTo_of_relate (has_of_tracks (conforms_afterAll ops) htl) hlink hda hdb hla hlb
        first second

/-- A company with two persons, a third person and a job that is free. -/
def vacancy : RunState where
  population := Population.initial.afterAll (Population.employment ++ [.create "Person", .create "Job"])
  scopes := ⟨[[[("p", .ref ⟨"Person", 6⟩), ("c", .ref ⟨"Company", 1⟩), ("j", .ref ⟨"Job", 7⟩)]]]⟩
  activation := .start "hire" none []
  journal := #[]

open Linking Run Population in
/-- The person gets the job, and loses it again. -/
theorem Linking.unrelate_restores_vacancy :
    ∃ s', exec (.bare .off) 1 (relate.statement .nowhere "p" "c" ⟨"R1", some "works for"⟩ "j") vacancy =
        .done .normal s' ∧
      s'.journal = vacancy.journal ∧
      exec (.bare .off) 1 (unrelate.statement .nowhere "p" "c" ⟨"R1", some "works for"⟩ "j") s' =
        .done .normal vacancy ∧
      s'.population.LeadsTo ⟨"Person", 6⟩ "R1" ⟨"Job", 7⟩ ∧ s'.population.LeadsTo ⟨"Person", 6⟩ "R1" ⟨"Company", 1⟩ ∧
      s'.population.LeadsTo ⟨"Company", 1⟩ "R1" ⟨"Person", 6⟩ := by
  obtain ⟨s', hexec, hquiet⟩ : ∃ s', exec (.bare .off) 1
      (relate.statement .nowhere "p" "c" ⟨"R1", some "works for"⟩ "j") vacancy = .done .normal s' ∧
      s'.journal = vacancy.journal := ⟨_, rfl, rfl⟩
  obtain ⟨a, b, l, ha, hb, hl, hback, hleads⟩ :=
    unrelate_restores (.bare .off) 0 0 .nowhere .nowhere "p" "c" ⟨"R1", some "works for"⟩ "j" vacancy s' hexec hquiet
  cases ha
  cases hb
  cases hl
  have hdeclared : (initial.declaredAll (employment ++ [.create "Person", .create "Job"])).filter (·.id = "R1") =
      [employs] := by decide
  exact ⟨s', hexec, hquiet, hback,
    hleads _ employs .first rfl hdeclared rfl rfl rfl (by decide) (by decide)⟩

end ObjectAction
