import RuleDesk.Catalog

namespace RuleDesk

/-- The members of the module `pe`. -/
def peModule : SchemaNode :=
  .root (some "Functions and fields for analysing PE (Portable Executable) files.")
    [("calculate_checksum", .function none [⟨[], "integer"⟩]),
     ("characteristics", .scalar none .integer),
     ("checksum", .scalar none .integer),
     ("data_directories",
       .array none
         (.record none
            [("size", .scalar none .integer),
             ("virtual_address", .scalar none .integer)])),
     ("dll_characteristics", .scalar none .integer),
     ("dll_name", .scalar none .string),
     ("entry_point", .scalar (some "Entry point as a file offset.") .integer),
     ("entry_point_raw", .scalar none .integer),
     ("export_details",
       .array none
         (.record none
            [("forward_name", .scalar none .string),
             ("name", .scalar none .string),
             ("offset", .scalar none .integer),
             ("ordinal", .scalar none .integer),
             ("rva", .scalar none .integer)])),
     ("export_timestamp", .scalar none .integer),
     ("exports",
       .function (some "Returns true if the file exports the given function.")
         [⟨["string"], "bool"⟩, ⟨["integer"], "bool"⟩, ⟨["regexp"], "bool"⟩]),
     ("exports_index",
       .function none [⟨["string"], "integer"⟩, ⟨["integer"], "integer"⟩, ⟨["regexp"], "integer"⟩]),
     ("image_base", .scalar none .integer),
     ("image_version",
       .record none [("major", .scalar none .integer), ("minor", .scalar none .integer)]),
     ("imphash", .function (some "Returns the import hash of the file.") [⟨[], "string"⟩]),
     ("import_details",
       .array none
         (.record none
            [("functions",
               .array none
                 (.record none
                    [("name", .scalar none .string),
                     ("ordinal", .scalar none .integer),
                     ("rva", .scalar none .integer)])),
             ("library_name", .scalar none .string),
             ("number_of_functions", .scalar none .integer)])),
     ("imports",
       .function (some "Returns true if the file imports the given function.")
         [⟨["string", "string"], "bool"⟩, ⟨["string", "integer"], "bool"⟩, ⟨["string"], "integer"⟩,
          ⟨["regexp", "regexp"], "integer"⟩]),
     ("imports_dll", .function none [⟨["string"], "bool"⟩]),
     ("is_32bit", .function (some "Returns true if the file is a 32-bit PE.") [⟨[], "bool"⟩]),
     ("is_64bit", .function (some "Returns true if the file is a 64-bit PE.") [⟨[], "bool"⟩]),
     ("is_dll", .function (some "Returns true if the file is a DLL.") [⟨[], "bool"⟩]),
     ("is_pe", .scalar (some "True if the file is a PE.") .bool),
     ("is_signed", .scalar (some "True if the file has at least one valid signature.") .bool),
     ("language", .function none [⟨["integer"], "bool"⟩]),
     ("linker_version",
       .record none [("major", .scalar none .integer), ("minor", .scalar none .integer)]),
     ("locale", .function none [⟨["integer"], "bool"⟩]),
     ("machine", .scalar (some "Target machine type.") .integer),
     ("number_of_exports", .scalar none .integer),
     ("number_of_imports", .scalar none .integer),
     ("number_of_resources", .scalar none .integer),
     ("number_of_sections", .scalar none .integer),
     ("number_of_signatures", .scalar none .integer),
     ("opthdr_magic", .scalar none .integer),
     ("os_version",
       .record none [("major", .scalar none .integer), ("minor", .scalar none .integer)]),
     ("overlay", .record none [("offset", .scalar none .integer), ("size", .scalar none .integer)]),
     ("pdb_path", .scalar none .string),
     ("resources",
       .array none
         (.record none
            [("id", .scalar none .integer),
             ("language", .scalar none .integer),
             ("language_string", .scalar none .string),
             ("length", .scalar none .integer),
             ("name_string", .scalar none .string),
             ("offset", .scalar none .integer),
             ("type", .scalar none .integer),
             ("type_string", .scalar none .string)])),
     ("rich_signature",
       .record (some "Rich header information.")
         [("clear_data", .scalar none .string),
          ("key", .scalar none .integer),
          ("length", .scalar none .integer),
          ("offset", .scalar none .integer),
          ("raw_data", .scalar none .string),
          ("toolid",
            .function none [⟨["integer"], "integer"⟩, ⟨["integer", "integer"], "integer"⟩]),
          ("version",
            .function none [⟨["integer"], "integer"⟩, ⟨["integer", "integer"], "integer"⟩])]),
     ("rva_to_offset", .function none [⟨["integer"], "integer"⟩]),
     ("section_index",
       .function (some
         "Returns the index of the section with the given name or containing the given offset.")
         [⟨["string"], "integer"⟩, ⟨["integer"], "integer"⟩]),
     ("sections",
       .array (some "Sections in the file.")
         (.record none
            [("characteristics", .scalar none .integer),
             ("full_name", .scalar none .string),
             ("name", .scalar (some "Section name.") .string),
             ("number_of_line_numbers", .scalar none .integer),
             ("number_of_relocations", .scalar none .integer),
             ("pointer_to_line_numbers", .scalar none .integer),
             ("pointer_to_relocations", .scalar none .integer),
             ("raw_data_offset", .scalar none .integer),
             ("raw_data_size", .scalar none .integer),
             ("virtual_address", .scalar none .integer),
             ("virtual_size", .scalar none .integer)])),
     ("signatures",
       .array (some "Authenticode signatures.")
         (.record none
            [("algorithm", .scalar none .string),
             ("algorithm_oid", .scalar none .string),
             ("digest", .scalar none .string),
             ("digest_alg", .scalar none .string),
             ("file_digest", .scalar none .string),
             ("issuer", .scalar none .string),
             ("not_after", .scalar none .integer),
             ("not_before", .scalar none .integer),
             ("number_of_certificates", .scalar none .integer),
             ("serial", .scalar none .string),
             ("subject", .scalar none .string),
             ("thumbprint", .scalar none .string),
             ("valid_on",
               .function (some "True if the signature was valid on the given timestamp.")
                 [⟨["integer"], "bool"⟩]),
             ("verified", .scalar none .bool),
             ("version", .scalar none .integer)])),
     ("size_of_headers", .scalar none .integer),
     ("size_of_image", .scalar none .integer),
     ("subsystem", .scalar none .integer),
     ("subsystem_version",
       .record none [("major", .scalar none .integer), ("minor", .scalar none .integer)]),
     ("timestamp", .scalar (some "Time when the file was linked.") .integer),
     ("version_info",
       .dictionary (some "Version information from the resources.")
         (.scalar none .string)
         ["Comments", "CompanyName", "FileDescription", "FileVersion", "InternalName",
          "LegalCopyright", "LegalTrademarks", "OriginalFilename", "PrivateBuild",
          "ProductName", "ProductVersion", "SpecialBuild"])]

end RuleDesk
