import RuleDesk.Catalog

namespace RuleDesk

/-- The members of the module `elf`. -/
def elfModule : SchemaNode :=
  .root (some "Fields for analysing ELF files.")
    [("dynamic",
       .array none
         (.record none [("type", .scalar none .integer), ("val", .scalar none .integer)])),
     ("dynamic_section_entries", .scalar none .integer),
     ("dynsym",
       .array none
         (.record none
            [("bind", .scalar none .integer),
             ("name", .scalar none .string),
             ("shndx", .scalar none .integer),
             ("size", .scalar none .integer),
             ("type", .scalar none .integer),
             ("value", .scalar none .integer),
             ("visibility", .scalar none .integer)])),
     ("dynsym_entries", .scalar none .integer),
     ("entry_point", .scalar none .integer),
     ("export_md5", .function none [⟨[], "string"⟩]),
     ("import_md5", .function none [⟨[], "string"⟩]),
     ("machine", .scalar none .integer),
     ("number_of_sections", .scalar none .integer),
     ("number_of_segments", .scalar none .integer),
     ("ph_entry_size", .scalar none .integer),
     ("ph_offset", .scalar none .integer),
     ("sections",
       .array none
         (.record none
            [("address", .scalar none .integer),
             ("flags", .scalar none .integer),
             ("name", .scalar none .string),
             ("offset", .scalar none .integer),
             ("size", .scalar none .integer),
             ("type", .scalar none .integer)])),
     ("segments",
       .array none
         (.record none
            [("alignment", .scalar none .integer),
             ("file_size", .scalar none .integer),
             ("flags", .scalar none .integer),
             ("memory_size", .scalar none .integer),
             ("offset", .scalar none .integer),
             ("physical_address", .scalar none .integer),
             ("type", .scalar none .integer),
             ("virtual_address", .scalar none .integer)])),
     ("sh_entry_size", .scalar none .integer),
     ("sh_offset", .scalar none .integer),
     ("symtab",
       .array none
         (.record none
            [("bind", .scalar none .integer),
             ("name", .scalar none .string),
             ("shndx", .scalar none .integer),
             ("size", .scalar none .integer),
             ("type", .scalar none .integer),
             ("value", .scalar none .integer),
             ("visibility", .scalar none .integer)])),
     ("symtab_entries", .scalar none .integer),
     ("telfhash", .function none [⟨[], "string"⟩]),
     ("type", .scalar (some "Object file type.") .integer)]

end RuleDesk
