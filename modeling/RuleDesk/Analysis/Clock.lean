import RuleDesk.Analysis.Action

namespace RuleDesk

namespace Analysis

/-- The pass among some that is due first. Of two that are due at one time it
is the one that was there first. -/
def earliest? : List Pass → Option Pass
  | [] => none
  | p :: rest =>
    match earliest? rest with
    | none => some p
    | some q => if q.due < p.due then some q else some p

/-- Wakes the passes that are due up to a time, one after the other. -/
def wakeUntil (time : Nat) : Nat → Analysis → Analysis
  | 0, a => a
  | fuel + 1, a =>
    match earliest? (a.passes.filter (·.due ≤ time)) with
    | none => a
    | some p => wakeUntil time fuel ({ a with now := max a.now p.due }.wake p.number)

/-- Lets time go by. Each pass wakes when it is due. It wakes twice at most,
once for compiling and once for the answer. -/
def advance (a : Analysis) (time : Nat) : Analysis :=
  { wakeUntil (a.now + time) (2 * a.passes.length) a with now := a.now + time }

/-- Lets time go by until no pass is left. -/
def settle (a : Analysis) : Analysis :=
  let longest := (a.passes.map (·.due)).foldl max a.now
  let delay := (a.compiler.map (·.delay)).getD 0
  a.advance (longest + delay - a.now)

end Analysis

end RuleDesk
