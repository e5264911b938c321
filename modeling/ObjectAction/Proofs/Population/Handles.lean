/-
Handles over the history of a population. The log of a history has an entry for every creation and every
deletion that succeeded; a population keeps no log, only its instances and the id to give next.

Main statement: the instances of a class are those of the log that were created and not deleted since, in the
order of their creation, no id is given twice, and what was deleted is refused ever after
(`handles_follow_log`). The instances are stored by ascending ids (`instances_ascending`).
-/
import ObjectAction.Proofs.Population.History

namespace ObjectAction

/-- What an operation that succeeded did to the handles. -/
inductive Handling where
  /-- `create className` returned the handle. -/
  | created (className : String) (r : InstanceRef)
  | deleted (r : InstanceRef)
  deriving DecidableEq

namespace Handling

/-- The handles that a log says were returned, in order. -/
def returned : List Handling → List InstanceRef
  | [] => []
  | created _ r :: rest => r :: returned rest
  | deleted _ :: rest => returned rest

/-- The handles that creations of a class returned, in order, without those deleted since. -/
def remaining (className : String) : List Handling → List InstanceRef
  | [] => []
  | created c r :: rest =>
    if c = className ∧ deleted r ∉ rest then r :: remaining className rest else remaining className rest
  | deleted _ :: rest => remaining className rest

end Handling

namespace Population

open Handling (created deleted returned remaining)

/-- What an operation does to the handles, if it succeeds. -/
def handling (p : Population) : Operation → Option Handling
  | .create className => (p.create className).toOption.map fun result => created className result.1
  | .delete r => (p.delete r).toOption.map fun _ => deleted r
  | _ => none

/-- The log of a sequence of operations. -/
def handlings (p : Population) : List Operation → List Handling
  | [] => []
  | op :: ops => (p.handling op).toList ++ (p.after op).handlings ops

/-- The handles of the instances, oldest first. -/
def refs (p : Population) : List InstanceRef := p.instances.map Instance.ref

/-! ## What an operation does to the handles -/

/-- The handles of the second population come from those of the first by what was done to them. -/
def Handled (p q : Population) : Option Handling → Prop
  | none => q.refs = p.refs ∧ q.nextId = p.nextId
  | some (.created className r) =>
    r = ⟨className, p.nextId⟩ ∧ q.refs = p.refs ++ [r] ∧ q.nextId = p.nextId + 1
  | some (.deleted r) => q.refs = p.refs.filter (· ≠ r) ∧ q.nextId = p.nextId

theorem Grows.handled {p q : Population} (h : Grows p q) : Handled p q none := ⟨h.refs, h.nextId⟩

theorem handled_create (p : Population) (className : String) :
    Handled p (p.after (.create className)) (p.handling (.create className)) := by
  cases h : p.create className with
  | error e => simp [after, handling, h, Except.map, Except.toOption, orUnchanged, Handled]
  | ok result =>
    obtain ⟨c, -, hresult⟩ := ok_of_bind h
    cases hresult
    simp [after, handling, h, Except.map, Except.toOption, orUnchanged, Handled, refs, Instance.ref]

theorem handled_delete (p : Population) (r : InstanceRef) :
    Handled p (p.after (.delete r)) (p.handling (.delete r)) := by
  cases h : p.delete r with
  | error e => simp [after, handling, h, Except.toOption, orUnchanged, Handled]
  | ok q =>
    have hq := delete_ok h
    subst hq
    have hfilter : (p.instances.filter (·.ref ≠ r)).map Instance.ref =
        (p.instances.map Instance.ref).filter (· ≠ r) := by
      rw [List.filter_map]
      rfl
    simpa [after, handling, h, Except.toOption, orUnchanged, Handled, refs] using hfilter

/-- Links are not handles: relating and unrelating do nothing to them. -/
theorem handled_links (p : Population) (links : List Link) : Handled p { p with links } none := ⟨rfl, rfl⟩

theorem handled_orUnchanged {p : Population} {e : Except PopulationError Population}
    (h : ∀ q, e = .ok q → Handled p q none) : Handled p (p.orUnchanged e) none := by
  cases e with
  | ok q => exact h q rfl
  | error => exact ⟨rfl, rfl⟩

/-- Every operation does to the handles what the log says. -/
theorem handled_after (p : Population) (op : Operation) : Handled p (p.after op) (p.handling op) := by
  cases op with
  | create className => exact handled_create p className
  | delete r => exact handled_delete p r
  | load m => exact (grows_load p m).handled
  | defineClass => exact handled_orUnchanged fun q h => (grows_defineClass h).handled
  | defineAssociation => exact handled_orUnchanged fun q h => (grows_defineAssociation h).handled
  | defineLinkedAssociation => exact handled_orUnchanged fun q h => (grows_defineLinkedAssociation h).handled
  | defineFunction | defineBridge | definePortOperation | defineEnumeration | takeEvents => exact ⟨rfl, rfl⟩
  | relate a b id phrase =>
    refine handled_orUnchanged fun q h => ?_
    obtain ⟨r, -, -, -, -, -, -, rfl⟩ := relate_ok h
    exact handled_links p _
  | unrelate a b id phrase =>
    refine handled_orUnchanged fun q h => ?_
    obtain ⟨r, _, _, rfl⟩ := unrelate_ok h
    exact handled_links p _
  | writeAttribute => exact handled_orUnchanged fun q h => (grows_writeAttribute h).handled
  | generate => exact handled_orUnchanged fun q h => (grows_generate h).handled

/-! ## Instances by the log -/

/-- All handles of a log that were not deleted since, whatever their class. -/
def surviving : List Handling → List InstanceRef
  | [] => []
  | .created _ r :: rest => if deleted r ∉ rest then r :: surviving rest else surviving rest
  | .deleted _ :: rest => surviving rest

/-- After a history there are the instances from before that were not deleted, and then the ones that were created
and not deleted since. -/
theorem refs_afterAll (p : Population) (ops : List Operation) : (p.afterAll ops).refs =
    p.refs.filter (fun r => deleted r ∉ p.handlings ops) ++ surviving (p.handlings ops) := by
  induction ops generalizing p with
  | nil => simp [handlings, surviving, afterAll]
  | cons op ops ih =>
    have hstep := handled_after p op
    have hrun : (p.afterAll (op :: ops)).refs = ((p.after op).afterAll ops).refs := rfl
    rw [hrun, ih (p.after op), handlings]
    cases hdone : p.handling op with
    | none =>
      rw [hdone] at hstep
      rw [hstep.1]
      rfl
    | some done =>
      rw [hdone] at hstep
      cases done with
      | created className r =>
        obtain ⟨-, hrefs, -⟩ := hstep
        rw [hrefs, List.filter_append]
        by_cases hlater : deleted r ∈ (p.after op).handlings ops
        · simp [surviving, hlater]
        · simp [surviving, hlater]
      | deleted r =>
        -- the handle is gone now, so it is no matter whether it is deleted once more
        obtain ⟨hrefs, -⟩ := hstep
        rw [hrefs, List.filter_filter]
        simp [surviving, Bool.and_comm]

theorem refs_afterAll_initial (ops : List Operation) :
    (initial.afterAll ops).refs = surviving (initial.handlings ops) := by
  have hnone : initial.refs = [] := rfl
  rw [refs_afterAll, hnone, List.filter_nil, List.nil_append]

theorem className_of_handling {p : Population} {op : Operation} {className : String} {r : InstanceRef}
    (h : p.handling op = some (.created className r)) : r.className = className := by
  have hstep := handled_after p op
  rw [h] at hstep
  rw [hstep.1]

/-- The handles of a class are the ones that creations of this class returned. -/
theorem filter_surviving (p : Population) (ops : List Operation) (className : String) :
    (surviving (p.handlings ops)).filter (·.className = className) = remaining className (p.handlings ops) := by
  induction ops generalizing p with
  | nil => rfl
  | cons op ops ih =>
    rw [handlings]
    cases hdone : p.handling op with
    | none => exact ih (p.after op)
    | some done =>
      cases done with
      | deleted r => exact ih (p.after op)
      | created c r =>
        have hclass := className_of_handling hdone
        have hrest := ih (p.after op)
        by_cases hlater : deleted r ∈ (p.after op).handlings ops
        · simp [surviving, remaining, hlater, hrest]
        · by_cases hc : c = className
          · simp [surviving, remaining, hlater, hrest, hclass, hc]
          · simp [surviving, remaining, hlater, hrest, hclass, hc]

/-- What is selected are the handles of the log that were not deleted since. -/
theorem selectMany_afterAll (ops : List Operation) (className : String) :
    (initial.afterAll ops).selectMany className = do
      let _ ← (initial.afterAll ops).classDef className
      return remaining className (initial.handlings ops) := by
  unfold selectMany
  rw [← filter_surviving initial ops className, ← refs_afterAll_initial, refs, List.filter_map]
  rfl

/-! ## Ids -/

/-- Ids are given in ascending order, from the next one on. -/
theorem ids_ascending (p : Population) (ops : List Operation) :
    (∀ r ∈ returned (p.handlings ops), p.nextId ≤ r.id) ∧
      (returned (p.handlings ops)).Pairwise (fun r r' => r.id < r'.id) := by
  induction ops generalizing p with
  | nil => simp [handlings, returned]
  | cons op ops ih =>
    obtain ⟨hlow, hascending⟩ := ih (p.after op)
    have hstep := handled_after p op
    rw [handlings]
    cases hdone : p.handling op with
    | none =>
      rw [hdone] at hstep
      rw [hstep.2] at hlow
      exact ⟨hlow, hascending⟩
    | some done =>
      rw [hdone] at hstep
      cases done with
      | deleted r =>
        rw [hstep.2] at hlow
        exact ⟨hlow, hascending⟩
      | created className r =>
        obtain ⟨hr, -, hnext⟩ := hstep
        have hid : r.id = p.nextId := by rw [hr]
        rw [hnext] at hlow
        refine ⟨?_, ?_⟩
        · intro r' hr'
          rcases List.mem_cons.mp hr' with rfl | hmem
          · omega
          · have hle := hlow r' hmem
            omega
        · refine List.pairwise_cons.mpr ⟨fun r' hmem => ?_, hascending⟩
          have hle := hlow r' hmem
          omega

theorem surviving_sublist_returned (log : List Handling) : (surviving log).Sublist (returned log) := by
  induction log with
  | nil => exact .slnil
  | cons done log ih =>
    cases done with
    | deleted r => exact ih
    | created className r =>
      unfold surviving returned
      split
      · exact ih.cons_cons r
      · exact ih.cons r

/-- The instances are stored in ascending order of their ids, whatever was created and deleted: to go through the list
is to go through a map that has the ids as its keys. -/
theorem instances_ascending (ops : List Operation) :
    (initial.afterAll ops).instances.Pairwise (fun i i' => i.id < i'.id) := by
  have hascending := (ids_ascending initial ops).2.sublist (surviving_sublist_returned _)
  rw [← refs_afterAll_initial, refs, List.pairwise_map] at hascending
  exact hascending

/-! ## Handles that were deleted -/

/-- The handle was given once, and no instance has it any more. -/
structure Stale (p : Population) (x : InstanceRef) : Prop where
  gone : x ∉ p.refs
  given : x.id < p.nextId

/-- No id of an instance will be given again. -/
def Numbered (p : Population) : Prop := ∀ r ∈ p.refs, r.id < p.nextId

theorem Numbered.after {p : Population} (h : p.Numbered) (op : Operation) : (p.after op).Numbered := by
  have hstep := handled_after p op
  intro r hr
  cases hdone : p.handling op with
  | none =>
    rw [hdone] at hstep
    rw [hstep.1] at hr
    rw [hstep.2]
    exact h r hr
  | some done =>
    rw [hdone] at hstep
    cases done with
    | created className r' =>
      obtain ⟨hr', hrefs, hnext⟩ := hstep
      rw [hrefs] at hr
      rw [hnext]
      rcases List.mem_append.mp hr with hr | hr
      · have hlt := h r hr
        omega
      · rw [List.mem_singleton.mp hr, hr']
        exact Nat.lt_succ_self _
    | deleted r' =>
      rw [hstep.1] at hr
      rw [hstep.2]
      exact h r (List.mem_of_mem_filter hr)

/-- What is stale stays so, since only ids that were not given before are given. -/
theorem Stale.after {p : Population} {x : InstanceRef} (h : p.Stale x) (op : Operation) : (p.after op).Stale x := by
  have hstep := handled_after p op
  cases hdone : p.handling op with
  | none =>
    rw [hdone] at hstep
    exact ⟨by rw [hstep.1]; exact h.gone, by rw [hstep.2]; exact h.given⟩
  | some done =>
    rw [hdone] at hstep
    cases done with
    | created className r =>
      obtain ⟨hr, hrefs, hnext⟩ := hstep
      refine ⟨?_, by rw [hnext]; exact Nat.lt_succ_of_lt h.given⟩
      rw [hrefs]
      intro hx
      rcases List.mem_append.mp hx with hx | hx
      · exact h.gone hx
      · have hid : x.id = p.nextId := by rw [List.mem_singleton.mp hx, hr]
        have hlt := h.given
        omega
    | deleted r =>
      refine ⟨?_, by rw [hstep.2]; exact h.given⟩
      rw [hstep.1]
      exact fun hx => h.gone (List.mem_of_mem_filter hx)

theorem Stale.afterAll {p : Population} {x : InstanceRef} (h : p.Stale x) (ops : List Operation) :
    (p.afterAll ops).Stale x := by
  induction ops generalizing p with
  | nil => exact h
  | cons op ops ih => exact ih (h.after op)

/-- A deletion that succeeds makes its handle stale. -/
theorem stale_of_deleted {p : Population} (h : p.Numbered) {op : Operation} {x : InstanceRef}
    (hdone : p.handling op = some (.deleted x)) : (p.after op).Stale x := by
  cases op with
  | delete r =>
    cases hdelete : p.delete r with
    | error e => simp [handling, hdelete, Except.toOption] at hdone
    | ok q =>
      have hx : r = x := by simpa [handling, hdelete, Except.toOption] using hdone
      subst hx
      obtain ⟨i, hi, -⟩ := ok_of_bind hdelete
      have htracked : r ∈ p.refs := tracks_iff.mp ⟨i, hi⟩
      have hstep := handled_after p (.delete r)
      rw [hdone] at hstep
      refine ⟨?_, by rw [hstep.2]; exact h r htracked⟩
      rw [hstep.1]
      simp
  | create className =>
    cases hcreate : p.create className with
    | error e => simp [handling, hcreate, Except.toOption] at hdone
    | ok result => simp [handling, hcreate, Except.toOption] at hdone
  | _ => cases hdone

theorem stale_of_mem {p : Population} (h : p.Numbered) {ops : List Operation} {x : InstanceRef}
    (hx : deleted x ∈ p.handlings ops) : (p.afterAll ops).Stale x := by
  induction ops generalizing p with
  | nil => cases hx
  | cons op ops ih =>
    rw [handlings, List.mem_append, Option.mem_toList] at hx
    rcases hx with hx | hx
    · exact (stale_of_deleted h hx).afterAll ops
    · exact ih (h.after op) hx

/-- Whatever is asked of the handle, the answer is that no instance has it. Where a second handle is asked about
first, it may be the one that is missing. -/
structure Refuses (p : Population) (x : InstanceRef) : Prop where
  delete : p.delete x = .error (.notTracked x.text)
  relate : ∀ b id phrase, p.relate x b id phrase = .error (.notTracked x.text)
  relateTo : ∀ a id phrase, p.relate a x id phrase = .error (.notTracked a.text) ∨
    p.relate a x id phrase = .error (.notTracked x.text)
  unrelate : ∀ b id phrase, p.unrelate x b id phrase = .error (.notTracked x.text)
  unrelateTo : ∀ a id phrase, p.unrelate a x id phrase = .error (.notTracked a.text) ∨
    p.unrelate a x id phrase = .error (.notTracked x.text)
  navigate : ∀ className id phrase, p.navigate x className id phrase = .error (.notTracked x.text)
  read : ∀ name, p.readAttribute x name = .error (.notTracked x.text)
  write : ∀ name v, p.writeAttribute x name v = .error (.notTracked x.text)
  operation : ∀ name, p.findInstanceOperation x name = .error (.notTracked x.text)
  event : ∀ label meaning arguments,
    p.generate ⟨label, meaning, arguments, .receiver x⟩ = .error (.notTracked x.text)

theorem tracked_cases (p : Population) (r : InstanceRef) :
    p.Tracks r ∨ p.tracked r = .error (.notTracked r.text) := by
  cases h : p.tracked r with
  | ok i => exact .inl ⟨i, h⟩
  | error e =>
    right
    unfold tracked at h
    split at h
    · cases h
    · exact h.symm

/-- Every operation on a handle begins by looking for its instance. -/
theorem Stale.refuses {p : Population} {x : InstanceRef} (h : p.Stale x) : p.Refuses x := by
  have hx : p.tracked x = .error (.notTracked x.text) :=
    (tracked_cases p x).resolve_left fun htracks => h.gone (tracks_iff.mp htracks)
  constructor
  case relateTo =>
    intro a id phrase
    rcases tracked_cases p a with ⟨i, ha⟩ | ha
    · right
      simp [Population.relate, ha, hx, bind, Except.bind]
    · left
      simp [Population.relate, ha, bind, Except.bind]
  case unrelateTo =>
    intro a id phrase
    rcases tracked_cases p a with ⟨i, ha⟩ | ha
    · right
      simp [Population.unrelate, ha, hx, bind, Except.bind]
    · left
      simp [Population.unrelate, ha, bind, Except.bind]
  case delete => simp [Population.delete, hx, bind, Except.bind]
  case relate => intros; simp [Population.relate, hx, bind, Except.bind]
  case unrelate => intros; simp [Population.unrelate, hx, bind, Except.bind]
  case navigate => intros; simp [Population.navigate, hx, bind, Except.bind]
  case read => intros; simp [Population.readAttribute, hx, bind, Except.bind]
  case write => intros; simp [Population.writeAttribute, hx, bind, Except.bind]
  case operation => intros; simp [Population.findInstanceOperation, hx, bind, Except.bind]
  case event => intros; simp [Population.generate, hx, bind, Except.bind]

/-! ## Whole histories -/

/-- Whatever happened to a population, the instances of a defined class are the handles that its creations
returned, in order, without those deleted since, and the first of them is the one that is selected alone. No two
handles that were ever returned have the same id, and what was deleted is refused from then on. -/
theorem handles_follow_log (ops : List Operation) :
    (∀ className, Table.has (initial.afterAll ops).classes className = true →
      (initial.afterAll ops).selectMany className = .ok (remaining className (initial.handlings ops)) ∧
      (initial.afterAll ops).selectOne className = .ok (remaining className (initial.handlings ops)).head?) ∧
    ((returned (initial.handlings ops)).map InstanceRef.id).Nodup ∧
    ∀ x, deleted x ∈ initial.handlings ops → (initial.afterAll ops).Refuses x := by
  refine ⟨fun className hclass => ?_, ?_, fun x hx => ?_⟩
  · have hmany : (initial.afterAll ops).selectMany className =
        .ok (remaining className (initial.handlings ops)) := by
      obtain ⟨c, hc⟩ := Option.isSome_iff_exists.mp hclass
      rw [selectMany_afterAll, classDef, hc]
      rfl
    refine ⟨hmany, ?_⟩
    unfold selectOne
    rw [hmany]
    rfl
  · refine List.Pairwise.map InstanceRef.id (fun r r' hlt => ?_) (ids_ascending initial ops).2
    exact Nat.ne_of_lt hlt
  · have hnumbered : initial.Numbered := nofun
    exact (stale_of_mem hnumbered hx).refuses

/-- Three dogs and a cat, of which the second dog is deleted, before a fourth dog. One deletion asks for a handle of
the wrong class, and one creation for a class that is not there. -/
def kennelHistory : List Operation :=
  [.defineClass "Dog" [], .defineClass "Cat" [], .create "Dog", .create "Cat", .create "Dog", .create "Wolf",
    .delete ⟨"Dog", 2⟩, .delete ⟨"Dog", 3⟩, .create "Dog"]

/-- The dogs are the first and the last one; the deleted one is refused. -/
theorem handles_follow_log_kennelHistory :
    (initial.afterAll kennelHistory).selectMany "Dog" = .ok [⟨"Dog", 1⟩, ⟨"Dog", 4⟩] ∧
      deleted ⟨"Dog", 3⟩ ∈ initial.handlings kennelHistory ∧
      (initial.afterAll kennelHistory).Refuses ⟨"Dog", 3⟩ := by
  obtain ⟨hselect, -, hrefuses⟩ := handles_follow_log kennelHistory
  have hdeleted : deleted ⟨"Dog", 3⟩ ∈ initial.handlings kennelHistory := by decide
  refine ⟨?_, hdeleted, hrefuses _ hdeleted⟩
  rw [(hselect "Dog" (by decide)).1]
  decide

end Population

end ObjectAction
