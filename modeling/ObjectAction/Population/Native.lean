/-
Native operations, which are not written in the action language. A host gives them, each by a name, and an
action refers to one by that name. A native operation sees the population, the instance that it is invoked
on and its arguments. It changes the population by requests only, and what they changed stays changed when
it ends in an error.
-/
import ObjectAction.Population.Navigation

namespace ObjectAction

/-- A change that a native operation asks for. -/
inductive Request where
  | create (className : String)
  | delete (r : InstanceRef)
  | relate (a b : InstanceRef) (id : String) (phrase : Option String)
  | unrelate (a b : InstanceRef) (id : String) (phrase : Option String)
  | writeAttribute (r : InstanceRef) (name : String) (v : Value)
  | generate (e : Event)

namespace Population

/-- The population after a step, which is the one before it if the step fails. -/
def orUnchanged (p : Population) : Except PopulationError Population → Population
  | .ok q => q
  | .error _ => p

/-- The population after a request, which is the one before it if the request is refused. -/
def grant (p : Population) : Request → Population
  | .create className => p.orUnchanged ((p.create className).map Prod.snd)
  | .delete r => p.orUnchanged (p.delete r)
  | .relate a b id phrase => p.orUnchanged (p.relate a b id phrase)
  | .unrelate a b id phrase => p.orUnchanged (p.unrelate a b id phrase)
  | .writeAttribute r name v => p.orUnchanged (p.writeAttribute r name v)
  | .generate e => p.orUnchanged (p.generate e)

/-- The population after a sequence of requests. -/
def grantAll (p : Population) (requests : List Request) : Population := requests.foldl grant p

end Population

/-- What a native operation does when it is invoked: its requests in order, and how it ends. -/
structure NativeCall where
  requests : List Request
  result : Except PopulationError Value

/-- A native operation. -/
def Native : Type := Population → Option InstanceRef → Arguments → NativeCall

/-- What a run gets from outside: which lines the log shows, and the native operations. -/
structure Host where
  verbosity : Verbosity
  natives : String → Native

/-- A host whose native operations do nothing. -/
def Host.bare (verbosity : Verbosity) : Host := ⟨verbosity, fun _ _ _ _ => ⟨[], .ok .null⟩⟩

end ObjectAction
