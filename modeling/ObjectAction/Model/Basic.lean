/-
Models: the classes, associations and named bodies that a component declares, with the bodies still
as text.
-/
import ObjectAction.Population.Basic

namespace ObjectAction

namespace Model

/-- A named body: a function, an operation or a derived attribute. -/
structure BodyDecl where
  name : String
  text : String
  deriving DecidableEq, Repr

structure ClassDecl where
  name : String
  attributes : List (String × AttributeType)
  derived : List BodyDecl
  operations : List BodyDecl
  classOperations : List BodyDecl
  deriving DecidableEq, Repr

structure AssociationDecl where
  id : String
  first : End
  second : End
  link : Option String
  deriving DecidableEq, Repr

/-- An external entity or a port. -/
structure OwnerDecl where
  name : String
  operations : List BodyDecl
  deriving DecidableEq, Repr

end Model

structure Model where
  component : Option String
  enumerations : Table (List String)
  classes : List Model.ClassDecl
  associations : List Model.AssociationDecl
  functions : List Model.BodyDecl
  entities : List Model.OwnerDecl
  ports : List Model.OwnerDecl

end ObjectAction
