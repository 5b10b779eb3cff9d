import RuleDesk.Catalog

namespace RuleDesk

/-- The members of the module `string`. -/
def stringModule : SchemaNode :=
  .root (some "String manipulation functions.")
    [("length", .function none [⟨["string"], "integer"⟩]),
     ("to_int",
       .function (some "Converts a string to an integer.")
         [⟨["string"], "integer"⟩, ⟨["string", "integer"], "integer"⟩])]

end RuleDesk
