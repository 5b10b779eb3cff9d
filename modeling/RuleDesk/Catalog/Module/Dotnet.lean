import RuleDesk.Catalog

namespace RuleDesk

/-- The members of the module `dotnet`. -/
def dotnetModule : SchemaNode :=
  .root (some ".NET file analysis.")
    [("assembly",
       .record none
         [("culture", .scalar none .string),
          ("name", .scalar none .string),
          ("version",
            .record none
              [("build_number", .scalar none .integer),
               ("major", .scalar none .integer),
               ("minor", .scalar none .integer),
               ("revision_number", .scalar none .integer)])]),
     ("assembly_refs",
       .array none
         (.record none
            [("name", .scalar none .string),
             ("public_key_or_token", .scalar none .string),
             ("version",
               .record none
                 [("build_number", .scalar none .integer),
                  ("major", .scalar none .integer),
                  ("minor", .scalar none .integer),
                  ("revision_number", .scalar none .integer)])])),
     ("classes",
       .array none
         (.record none
            [("abstract", .scalar none .bool),
             ("fullname", .scalar none .string),
             ("methods",
               .array none
                 (.record none
                    [("abstract", .scalar none .bool),
                     ("final", .scalar none .bool),
                     ("name", .scalar none .string),
                     ("number_of_parameters", .scalar none .integer),
                     ("return_type", .scalar none .string),
                     ("static", .scalar none .bool),
                     ("virtual", .scalar none .bool),
                     ("visibility", .scalar none .string)])),
             ("name", .scalar none .string),
             ("namespace", .scalar none .string),
             ("number_of_methods", .scalar none .integer),
             ("sealed", .scalar none .bool),
             ("type", .scalar none .string),
             ("visibility", .scalar none .string)])),
     ("constants", .array none (.scalar none .string)),
     ("guids", .array none (.scalar none .string)),
     ("is_dotnet", .scalar none .bool),
     ("module_name", .scalar none .string),
     ("modulerefs", .array none (.scalar none .string)),
     ("number_of_assembly_refs", .scalar none .integer),
     ("number_of_classes", .scalar none .integer),
     ("number_of_constants", .scalar none .integer),
     ("number_of_field_offsets", .scalar none .integer),
     ("number_of_generic_parameters", .scalar none .integer),
     ("number_of_guids", .scalar none .integer),
     ("number_of_modulerefs", .scalar none .integer),
     ("number_of_resources", .scalar none .integer),
     ("number_of_streams", .scalar none .integer),
     ("number_of_user_strings", .scalar none .integer),
     ("resources",
       .array none
         (.record none
            [("length", .scalar none .integer),
             ("name", .scalar none .string),
             ("offset", .scalar none .integer)])),
     ("streams",
       .array none
         (.record none
            [("name", .scalar none .string),
             ("offset", .scalar none .integer),
             ("size", .scalar none .integer)])),
     ("typelib", .scalar none .string),
     ("user_strings", .array none (.scalar none .string)),
     ("version", .scalar none .string)]

end RuleDesk
