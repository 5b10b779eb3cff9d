import RuleDesk.Catalog.Module.Console
import RuleDesk.Catalog.Module.Cuckoo
import RuleDesk.Catalog.Module.Dotnet
import RuleDesk.Catalog.Module.Elf
import RuleDesk.Catalog.Module.Hash
import RuleDesk.Catalog.Module.Magic
import RuleDesk.Catalog.Module.Math
import RuleDesk.Catalog.Module.Pe
import RuleDesk.Catalog.Module.String
import RuleDesk.Catalog.Module.Time

namespace RuleDesk

/-- The modules that rules can import. -/
def Catalog.builtin : Catalog :=
  ⟨[("console", consoleModule),
    ("cuckoo", cuckooModule),
    ("dotnet", dotnetModule),
    ("elf", elfModule),
    ("hash", hashModule),
    ("magic", magicModule),
    ("math", mathModule),
    ("pe", peModule),
    ("string", stringModule),
    ("time", timeModule)]⟩

end RuleDesk
