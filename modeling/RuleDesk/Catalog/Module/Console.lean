import RuleDesk.Catalog

namespace RuleDesk

/-- The members of the module `console`. -/
def consoleModule : SchemaNode :=
  .root (some "Debugging helpers.")
    [("hex", .function none [⟨["integer"], "bool"⟩, ⟨["string", "integer"], "bool"⟩]),
     ("log",
       .function (some "Logs a message while scanning.")
         [⟨["string"], "bool"⟩, ⟨["string", "string"], "bool"⟩, ⟨["string", "integer"], "bool"⟩,
          ⟨["string", "float"], "bool"⟩, ⟨["integer"], "bool"⟩, ⟨["float"], "bool"⟩])]

end RuleDesk
