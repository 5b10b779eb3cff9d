import RuleDesk.Json.Record

namespace RuleDesk

/-- What a user can set in the editor. The delay between the last change of a
document and its compilation is in milliseconds. -/
structure Settings where
  compileOnChange : Bool
  compileOnSave : Bool
  debounce : Nat
  cacheWorkspace : Bool
  compilerPath : String
deriving DecidableEq, Repr

namespace Settings

/-- What holds until the user sets something else. -/
def standard : Settings := ⟨true, true, 300, false, "yarac"⟩

def fieldNames : List String :=
  ["compileOnChange", "compileOnSave", "debounceMs", "cacheWorkspace", "compilerPath"]

/-- Delays have 64 bits. -/
def delay? : Json → Option Nat
  | .int (.ofNat n) => if n < 0x10000000000000000 then some n else none
  | _ => none

/-- A setting that is missing keeps its standard value. Any other value than
one of its type is an error, also `null`. -/
def settingOr (standard : α) (read? : Json → Option α) : Option Json → Option α
  | none => some standard
  | some j => read? j

def ofJson? (j : Json) : Option Settings := do
  match ← j.record? fieldNames with
  | [onChange, onSave, debounce, cache, path] =>
    some
      { compileOnChange := ← settingOr standard.compileOnChange Json.bool? onChange
        compileOnSave := ← settingOr standard.compileOnSave Json.bool? onSave
        debounce := ← settingOr standard.debounce delay? debounce
        cacheWorkspace := ← settingOr standard.cacheWorkspace Json.bool? cache
        compilerPath := ← settingOr standard.compilerPath Json.str? path }
  | _ => none

end Settings

end RuleDesk
