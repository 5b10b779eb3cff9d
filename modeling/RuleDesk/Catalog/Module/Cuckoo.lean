import RuleDesk.Catalog

namespace RuleDesk

/-- The members of the module `cuckoo`. -/
def cuckooModule : SchemaNode :=
  .root (some "Behaviour reports produced by the Cuckoo sandbox.")
    [("filesystem", .record none [("file_access", .function none [⟨["regexp"], "integer"⟩])]),
     ("network",
       .record none
         [("dns_lookup", .function none [⟨["regexp"], "integer"⟩]),
          ("host", .function none [⟨["regexp"], "integer"⟩]),
          ("http_get", .function none [⟨["regexp"], "integer"⟩]),
          ("http_post", .function none [⟨["regexp"], "integer"⟩]),
          ("http_request", .function none [⟨["regexp"], "integer"⟩]),
          ("http_user_agent", .function none [⟨["regexp"], "integer"⟩]),
          ("tcp", .function none [⟨["regexp", "integer"], "integer"⟩]),
          ("udp", .function none [⟨["regexp", "integer"], "integer"⟩])]),
     ("process",
       .record none
         [("api_call", .function none [⟨["regexp"], "integer"⟩]),
          ("executed_command", .function none [⟨["regexp"], "integer"⟩]),
          ("modules_loaded", .function none [⟨["regexp"], "integer"⟩])]),
     ("registry", .record none [("key_access", .function none [⟨["regexp"], "integer"⟩])]),
     ("sync", .record none [("mutex", .function none [⟨["regexp"], "integer"⟩])])]

end RuleDesk
