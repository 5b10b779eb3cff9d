import RuleDesk.Json

namespace RuleDesk

namespace Json

/-- The values of the named fields of a record, in the order of the names. A
record is an object, where no named field is repeated, or the array of the
values, where the last ones may be missing. -/
def record? (names : List String) : Json → Option (List (Option Json))
  | obj fields => names.mapM fun name =>
    match fields.filter (·.1 == name) with
    | [] => some none
    | [(_, value)] => some (some value)
    | _ => none
  | arr items =>
    if items.length ≤ names.length then
      some (items.map some ++ List.replicate (names.length - items.length) none)
    else none
  | _ => none

def strings? : Json → Option (List String)
  | arr items => items.mapM str?
  | _ => none

end Json

end RuleDesk
