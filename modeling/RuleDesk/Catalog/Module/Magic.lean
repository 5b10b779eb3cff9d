import RuleDesk.Catalog

namespace RuleDesk

/-- The members of the module `magic`. -/
def magicModule : SchemaNode :=
  .root (some "File type identification.")
    [("mime_type", .function none [⟨[], "string"⟩]),
     ("type", .function (some "File type description produced by libmagic.") [⟨[], "string"⟩])]

end RuleDesk
