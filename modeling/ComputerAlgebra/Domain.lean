/-! Nested sets of values, from booleans to everything, to which results may be confined. -/

namespace ComputerAlgebra

inductive Domain where
  | boolean | integer | rational | real | complex | any
deriving DecidableEq

namespace Domain

def name : Domain → String
  | .boolean => "boolean"
  | .integer => "integer"
  | .rational => "rational"
  | .real => "real"
  | .complex => "complex"
  | .any => "any"

def all : List Domain := [.boolean, .integer, .rational, .real, .complex, .any]

def ofName? (s : String) : Option Domain := all.find? (·.name = s)

end Domain
end ComputerAlgebra
