import RuleDesk.Catalog

namespace RuleDesk

/-- The members of the module `time`. -/
def timeModule : SchemaNode :=
  .root (some "Time related functions.")
    [("now", .function (some "Current Unix timestamp.") [⟨[], "integer"⟩])]

end RuleDesk
