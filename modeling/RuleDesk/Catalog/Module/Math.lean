import RuleDesk.Catalog

namespace RuleDesk

/-- The members of the module `math`. -/
def mathModule : SchemaNode :=
  .root (some "Mathematical functions over file data.")
    [("abs", .function none [⟨["integer"], "integer"⟩]),
     ("count",
       .function none [⟨["integer", "integer", "integer"], "integer"⟩, ⟨["integer"], "integer"⟩]),
     ("deviation",
       .function none [⟨["integer", "integer", "float"], "float"⟩, ⟨["string", "float"], "float"⟩]),
     ("entropy",
       .function (some "Entropy of the data in the given range or string.")
         [⟨["integer", "integer"], "float"⟩, ⟨["string"], "float"⟩]),
     ("in_range", .function none [⟨["float", "float", "float"], "bool"⟩]),
     ("max", .function none [⟨["integer", "integer"], "integer"⟩]),
     ("mean", .function none [⟨["integer", "integer"], "float"⟩, ⟨["string"], "float"⟩]),
     ("min", .function none [⟨["integer", "integer"], "integer"⟩]),
     ("mode", .function none [⟨["integer", "integer"], "integer"⟩, ⟨[], "integer"⟩]),
     ("monte_carlo_pi", .function none [⟨["integer", "integer"], "float"⟩, ⟨["string"], "float"⟩]),
     ("percentage",
       .function none [⟨["integer", "integer", "integer"], "float"⟩, ⟨["integer"], "float"⟩]),
     ("serial_correlation",
       .function none [⟨["integer", "integer"], "float"⟩, ⟨["string"], "float"⟩]),
     ("to_number", .function none [⟨["bool"], "integer"⟩]),
     ("to_string", .function none [⟨["integer"], "string"⟩, ⟨["integer", "integer"], "string"⟩])]

end RuleDesk
