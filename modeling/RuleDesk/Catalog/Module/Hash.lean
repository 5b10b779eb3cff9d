import RuleDesk.Catalog

namespace RuleDesk

/-- The members of the module `hash`. -/
def hashModule : SchemaNode :=
  .root (some "Hash functions.")
    [("checksum32", .function none [⟨["integer", "integer"], "integer"⟩, ⟨["string"], "integer"⟩]),
     ("crc32", .function none [⟨["integer", "integer"], "integer"⟩, ⟨["string"], "integer"⟩]),
     ("md5",
       .function (some "MD5 digest.") [⟨["integer", "integer"], "string"⟩, ⟨["string"], "string"⟩]),
     ("sha1",
       .function (some "SHA-1 digest.")
         [⟨["integer", "integer"], "string"⟩, ⟨["string"], "string"⟩]),
     ("sha256",
       .function (some "SHA-256 digest.")
         [⟨["integer", "integer"], "string"⟩, ⟨["string"], "string"⟩])]

end RuleDesk
