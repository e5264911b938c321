/-
Relating and unrelating by way of a link instance. The statement performs two operations on the population, one
between the first instance and the link and then one between the link and the second instance. Each of them
is done or changes nothing, but nothing takes the first one back when the second fails. So after a fault the
population is what it was, or it is what the first operation alone has made of it.
-/
import ObjectAction.Proofs.Population.History
import ObjectAction.Proofs.Run.Evaluation

namespace ObjectAction

/-- What a statement can do to two instances across a relationship. -/
inductive Linking where
  | relate
  | unrelate

namespace Linking

def operation : Linking → Population → InstanceRef → InstanceRef → String → Option String →
    Except PopulationError Population
  | relate => Population.relate
  | unrelate => Population.unrelate

/-- The statement that does it by way of a link instance. -/
def statement (k : Linking) (extent : Extent) (source target : String) (relationship : Relationship)
    (link : String) : Statement :=
  match k with
  | relate => .relate extent source target relationship (some link)
  | unrelate => .unrelate extent source target relationship (some link)

/-- The links after the operation on `a` and `b` in a reading of their relationship. -/
def links (k : Linking) (r : Reading) (a b : InstanceRef) (ls : List Link) : List Link :=
  match k with
  | relate => ls ++ [r.link a b]
  | unrelate => ls.eraseP (r.joins a b)

variable {k : Linking}

theorem operation_ok {p q : Population} {a b : InstanceRef} {id : String} {phrase : Option String}
    (h : k.operation p a b id phrase = .ok q) :
    ∃ r, p.reading a.className b.className id phrase = .ok r ∧ q = { p with links := k.links r a b p.links } ∧
      q.links ≠ p.links := by
  cases k with
  | relate =>
    obtain ⟨r, _, _, hr, _, _, _, rfl⟩ := Population.relate_ok h
    exact ⟨r, hr, rfl, by simp⟩
  | unrelate =>
    obtain ⟨r, hr, hany, rfl⟩ := Population.unrelate_ok h
    refine ⟨r, hr, rfl, fun heq => ?_⟩
    obtain ⟨l, hl, hjoins⟩ := List.any_eq_true.mp hany
    have hlength := List.length_eraseP_add_one hl hjoins
    have hsame : (p.links.eraseP (r.joins a b)).length = p.links.length := congrArg List.length heq
    omega

end Linking

/-- The variable, or what the model defines by that name, is that instance. -/
def RunState.Holds (s : RunState) (name : String) (r : InstanceRef) : Prop :=
  Run.resolveName s.scopes s.population name = .ok (.ref r)

namespace Run

open Fault (isRecoverable)

theorem readRef_cases (name : String) (s : RunState) :
    (∃ r, s.Holds name r ∧ readRef name s = .done r s) ∨
      ∃ f, isRecoverable f = true ∧ readRef name s = .failed f s := by
  have hread : readVariable name s = ask (resolveName s.scopes · name) s := bind_done rfl
  cases hv : resolveName s.scopes s.population name with
  | error e => exact .inr ⟨.population e, rfl, bind_failed (hread.trans (ask_error hv))⟩
  | ok v =>
    have hexpect : readRef name s = expectRef v s := bind_done (hread.trans (ask_ok hv))
    cases v with
    | ref r => exact .inl ⟨r, hv, hexpect⟩
    | _ => exact .inr ⟨_, rfl, hexpect⟩

theorem readRef_of_holds {name : String} {s : RunState} {r : InstanceRef} (h : s.Holds name r) :
    readRef name s = .done r s := by
  have hread : readVariable name s = ask (resolveName s.scopes · name) s := bind_done rfl
  exact bind_done (hread.trans (ask_ok h))

theorem change_ok {f : Population → Except PopulationError Population} {s : RunState} {q : Population}
    (h : f s.population = .ok q) : change f s = .done () { s with population := q } := by
  simp only [change, perform, h, Except.map]

theorem change_error {f : Population → Except PopulationError Population} {s : RunState} {e : PopulationError}
    (h : f s.population = .error e) : change f s = .failed (.population e) s := by
  simp only [change, perform, h, Except.map]

end Run

namespace Linking

open Run Fault

/-- How the statement can end on a line of the running body: both operations are done; or the population is what
it was and a fault is reported; or the first operation is done, and the fault of the second is reported. -/
inductive Ends (k : Linking) (line : Nat) (source target : String) (relationship : Relationship) (link : String)
    (s : RunState) : RunState → Prop
  | both {a b l : InstanceRef} {q q' : Population} (ha : s.Holds source a) (hb : s.Holds target b)
    (hl : s.Holds link l) (first : k.operation s.population a l relationship.id relationship.phrase = .ok q)
    (second : k.operation q l b relationship.id relationship.phrase = .ok q') :
    Ends k line source target relationship link s { s with population := q' }
  | neither (f : Fault) :
    Ends k line source target relationship link s
      { s with journal := s.journal.push (.fault s.activation.label line f) }
  | half {a b l : InstanceRef} {q : Population} {e : PopulationError} (ha : s.Holds source a)
    (hb : s.Holds target b) (hl : s.Holds link l)
    (first : k.operation s.population a l relationship.id relationship.phrase = .ok q)
    (second : k.operation q l b relationship.id relationship.phrase = .error e) :
    Ends k line source target relationship link s
      { s with population := q, journal := s.journal.push (.fault s.activation.label line (.population e)) }

variable {k : Linking}

theorem execForm_statement (host : Host) (fuel : Nat) (eval : Expression → Run Value)
    (exec : Statement → Run Signal) (activate : Activation → Body → Run Value) (extent : Extent)
    (source target : String) (relationship : Relationship) (link : String) :
    execForm host fuel eval exec activate (k.statement extent source target relationship link) =
      acrossLink k.operation source target relationship (some link) >>= fun _ => pure .normal := by
  cases k with
  | relate => rfl
  | unrelate => rfl

/-- What the two operations do from a state, before a fault is recovered from. -/
theorem acrossLink_cases (line : Nat) (source target : String) (relationship : Relationship) (link : String)
    (s : RunState) :
    (∃ s', acrossLink k.operation source target relationship (some link) s = .done () s' ∧
      k.Ends line source target relationship link s s') ∨
    ∃ f s', acrossLink k.operation source target relationship (some link) s = .failed f s' ∧
      isRecoverable f = true ∧ s'.activation = s.activation ∧
      k.Ends line source target relationship link s
        { s' with journal := s'.journal.push (.fault s.activation.label line f) } := by
  -- the three variables are read before the first operation, so a fault there leaves the state as it is
  rcases readRef_cases source s with ⟨a, ha, hreadA⟩ | ⟨f, hf, hreadA⟩
  · rcases readRef_cases target s with ⟨b, hb, hreadB⟩ | ⟨f, hf, hreadB⟩
    · rcases readRef_cases link s with ⟨l, hl, hreadL⟩ | ⟨f, hf, hreadL⟩
      · have hcalls : acrossLink k.operation source target relationship (some link) s =
            (change (k.operation · a l relationship.id relationship.phrase) >>= fun _ =>
              change (k.operation · l b relationship.id relationship.phrase)) s :=
          (bind_done hreadA).trans ((bind_done hreadB).trans (bind_done hreadL))
        rw [hcalls]
        cases hfirst : k.operation s.population a l relationship.id relationship.phrase with
        | error e => exact .inr ⟨_, s, bind_failed (change_error hfirst), rfl, rfl, .neither _⟩
        | ok q =>
          rw [bind_done (change_ok hfirst)]
          cases hsecond : k.operation q l b relationship.id relationship.phrase with
          | error e => exact .inr ⟨_, _, change_error hsecond, rfl, rfl, .half ha hb hl hfirst hsecond⟩
          | ok q' => exact .inl ⟨_, change_ok hsecond, .both ha hb hl hfirst hsecond⟩
      · refine .inr ⟨f, s, ?_, hf, rfl, .neither f⟩
        exact (bind_done hreadA).trans ((bind_done hreadB).trans (bind_failed hreadL))
    · exact .inr ⟨f, s, (bind_done hreadA).trans (bind_failed hreadB), hf, rfl, .neither f⟩
  · exact .inr ⟨f, s, bind_failed hreadA, hf, rfl, .neither f⟩

/-- The statement always ends, in one of the three ways. -/
theorem exec_statement (host : Host) (fuel : Nat) (extent : Extent) (source target : String)
    (relationship : Relationship) (link : String) (s : RunState) :
    ∃ s', exec host (fuel + 1) (k.statement extent source target relationship link) s = .done .normal s' ∧
      k.Ends extent.start.line source target relationship link s s' := by
  have hextent : (k.statement extent source target relationship link).extent = extent := by
    cases k with
    | relate => rfl
    | unrelate => rfl
  unfold exec execStep recover
  rw [execForm_statement, hextent]
  rcases acrossLink_cases extent.start.line source target relationship link s with
    ⟨s', hdone, hends⟩ | ⟨f, s', hfailed, hf, hactivation, hends⟩
  · exact ⟨s', by rw [bind_done hdone]; rfl, hends⟩
  · refine ⟨_, ?_, hends⟩
    rw [bind_failed hfailed, ← hactivation]
    simp only [hf, if_true]
    rfl

end Linking

open Linking Run in
/-- In every state and for all variables, the statement that relates or unrelates by way of a link instance ends
normally. If it reports nothing, both operations are done. If it reports a fault, the population is what it was,
links included, unless the first operation could be done and the second could not: then exactly the link of the
first operation is added or removed, and the fault of the second is reported. -/
theorem Linking.exec_reports (k : Linking) (host : Host) (fuel : Nat) (extent : Extent)
    (source target : String) (relationship : Relationship) (link : String) (s : RunState) :
    ∃ s', exec host (fuel + 1) (k.statement extent source target relationship link) s = .done .normal s' ∧
      (s'.journal = s.journal → ∃ a b l q, s.Holds source a ∧ s.Holds target b ∧ s.Holds link l ∧
        k.operation s.population a l relationship.id relationship.phrase = .ok q ∧
        k.operation q l b relationship.id relationship.phrase = .ok s'.population) ∧
      (s'.journal ≠ s.journal → s'.population = s.population ∨
        ∃ a b l r e, s.Holds source a ∧ s.Holds target b ∧ s.Holds link l ∧
          k.operation s.population a l relationship.id relationship.phrase = .ok s'.population ∧
          k.operation s'.population l b relationship.id relationship.phrase = .error e ∧
          s.population.reading a.className l.className relationship.id relationship.phrase = .ok r ∧
          s'.population = { s.population with links := k.links r a l s.population.links } ∧
          s'.population.links ≠ s.population.links ∧
          s'.journal = s.journal.push (.fault s.activation.label extent.start.line (.population e))) := by
  obtain ⟨s', hexec, hends⟩ := exec_statement host fuel extent source target relationship link s
  refine ⟨s', hexec, ?_⟩
  cases hends with
  | both ha hb hl first second =>
    exact ⟨fun _ => ⟨_, _, _, _, ha, hb, hl, first, second⟩, fun hjournal => absurd rfl hjournal⟩
  | neither f => exact ⟨fun hjournal => absurd hjournal (by simp), fun _ => .inl rfl⟩
  | half ha hb hl first second =>
    obtain ⟨r, hr, hlinks, hchanged⟩ := operation_ok first
    refine ⟨fun hjournal => absurd hjournal (by simp), fun _ => .inr ?_⟩
    exact ⟨_, _, _, r, _, ha, hb, hl, first, second, hr, hlinks, hchanged, rfl⟩

/-- A person, a company and a job between them, of which one of the two links was made by itself. -/
def halfHired (a b : InstanceRef) : RunState where
  population := Population.initial.afterAll
    [.defineClass "Person" [], .defineClass "Company" [], .defineClass "Job" [],
      .defineLinkedAssociation "R1" ⟨"Person", none, true⟩ ⟨"Company", none, false⟩ "Job",
      .create "Person", .create "Company", .create "Job", .relate a b "R1" none]
  scopes := ⟨[[[("p", .ref ⟨"Person", 1⟩), ("c", .ref ⟨"Company", 2⟩), ("j", .ref ⟨"Job", 3⟩)]]]⟩
  activation := .start "hire" none []
  journal := #[]

/-- Neither statement is all or nothing: with the job already at the company the person gets it before the fault,
and with a job at no company the person loses it before the fault. -/
theorem Linking.exec_not_atomic :
    (∃ s', Run.exec (.bare .off) 1 (relate.statement .nowhere "p" "c" ⟨"R1", none⟩ "j")
        (halfHired ⟨"Job", 3⟩ ⟨"Company", 2⟩) = .done .normal s' ∧
      s'.journal ≠ #[] ∧
      s'.population.links = (halfHired ⟨"Job", 3⟩ ⟨"Company", 2⟩).population.links ++
        [⟨0, ⟨"Person", 1⟩, ⟨"Job", 3⟩⟩]) ∧
    ∃ s', Run.exec (.bare .off) 1 (unrelate.statement .nowhere "p" "c" ⟨"R1", none⟩ "j")
        (halfHired ⟨"Person", 1⟩ ⟨"Job", 3⟩) = .done .normal s' ∧
      s'.journal ≠ #[] ∧ (halfHired ⟨"Person", 1⟩ ⟨"Job", 3⟩).population.links ≠ [] ∧ s'.population.links = [] := by
  refine ⟨⟨_, rfl, ?_, rfl⟩, _, rfl, ?_, ?_, rfl⟩
  · decide
  · decide
  · decide

end ObjectAction
