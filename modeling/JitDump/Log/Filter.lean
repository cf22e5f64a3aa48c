import JitDump.Log.Directive

/-! # Which log lines are shown

A filter is a list of directives, at most one for the same lines. Of those that are for a line, one
outranks the others and decides. -/

namespace JitDump.Log

abbrev Filter := List Directive

namespace Filter

/-- Adds a directive in place of one for the same lines. -/
def add (f : Filter) (d : Directive) : Filter := f.filter (!d.rivals ·) ++ [d]

/-- The directive that decides on a line. -/
def decider (f : Filter) (l : Line) : Option Directive :=
  (f.filter (·.isFor l)).foldl (fun best d =>
    match best with
    | some b => if d.outranks b then some d else best
    | none => some d) none

def shows (f : Filter) (l : Line) : Bool :=
  match f.decider l with
  | some d => l.level.verbosity ≤ d.verbosity
  | none => false

/-- The filter that a list of directives describes, and a complaint about each that is none. -/
def parse (text : String) : Filter × List String :=
  ((text.splitOn ",").filter (· != "")).foldl (fun (f, complaints) piece =>
    match Directive.parse piece with
    | .ok (some d) => (add f d, complaints)
    | .ok none => (f, complaints)
    | .error fault => (f, complaints ++ ["ignoring `" ++ piece ++ "`: " ++ fault.message]))
    (([] : Filter), ([] : List String))

end Filter

end JitDump.Log
