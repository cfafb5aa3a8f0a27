import TickCircuit.Gate.Describe
import TickCircuit.Gate.Template
import TickCircuit.Registry.Document
import TickCircuit.Simulation
/-!
The command line: a registry document and a gate type, with `--ticks`, `--input` and `--describe`.
The gate is run as the root of a simulation, and its output is printed after every tick.
-/
namespace TickCircuit.CommandLine
open Text

structure Options where
  registry : String
  gate : String
  ticks : Nat
  input : Option String
  describe : Bool
deriving DecidableEq

structure Arguments where
  positional : List String
  ticks : Option String
  input : Option String
  describe : Bool

def defaultTicks : Nat := 8

def usage : String :=
  "usage: tick-circuit <registry> <gate> [--ticks <n>] [--input <literal>] [--describe]"

/-- A lone dash is a value; any other text that begins with a dash is meant as an option. -/
def isOption (arg : List Char) : Bool := arg.head? == some '-' && arg != ['-']

def takeValue (attached : Option (List Char)) (rest : List String) :
    Option (String × List String) :=
  match attached, rest with
  | some v, _ => some (String.ofList v, rest)
  | none, next :: rest => if isOption next.toList then none else some (next, rest)
  | none, [] => none

theorem length_takeValue {attached : Option (List Char)} {rest after : List String} {v : String}
    (h : takeValue attached rest = some (v, after)) : after.length ≤ rest.length := by
  unfold takeValue at h
  split at h
  · simp_all
  · split at h <;> simp_all
  · cases h

/-- Sorts out the arguments; after `--` all of them are positional. No option may come twice. -/
def sort (found : Arguments) (args : List String) : Option Arguments :=
  match args with
  | [] => some found
  | arg :: rest =>
    match arg.toList with
    | ['-', '-'] => some { found with positional := found.positional ++ rest }
    | '-' :: '-' :: long =>
      let (name, attached) := match splitOnce ['='] long with
        | some (name, v) => (name, some v)
        | none => (long, none)
      if name = "ticks".toList ∧ found.ticks = none then
        match _h : takeValue attached rest with
        | some (v, rest) => sort { found with ticks := some v } rest
        | none => none
      else if name = "input".toList ∧ found.input = none then
        match _h : takeValue attached rest with
        | some (v, rest) => sort { found with input := some v } rest
        | none => none
      else if name = "describe".toList ∧ attached = none ∧ !found.describe then
        sort { found with describe := true } rest
      else none
    | chars =>
      if isOption chars then none
      else sort { found with positional := found.positional ++ [arg] } rest
termination_by args.length
decreasing_by
  · have := length_takeValue _h
    simp only [List.length_cons]; omega
  · have := length_takeValue _h
    simp only [List.length_cons]; omega
  · simp
  · simp

/-- The options of a command line; `none` for one that cannot be used. -/
def Options.parse (args : List String) : Option Options := do
  let found ← sort ⟨[], none, none, false⟩ args
  let ticks ← match found.ticks with
    | none => some defaultTicks
    | some text => readCount text.toList
  match found.positional with
  | [registry, gate] =>
    if registry = "" then none else some ⟨registry, gate, ticks, found.input, found.describe⟩
  | _ => none

inductive Problem where
  | unreadable (path reason : String)
  | input (error : Grammar.ParseError)
  | fault (fault : Fault)
deriving DecidableEq

def Problem.message : Problem → String
  | .unreadable path reason => "failed to read " ++ path ++ ": " ++ reason
  | .input e => "invalid --input: " ++ e.message
  | .fault f => f.message

def report (s : Simulation) : Nat → List String
  | 0 => []
  | n + 1 =>
    let next := s.tick
    let output := next.output.elim "-" Value.text
    let fault := next.root.face.fault.elim [] fun f => ["  fault: " ++ f.message]
    ("tick " ++ s.ticks.repr ++ ": " ++ output) :: fault ++ report next n

def description (g : Gate) : List String :=
  match g with
  | .circuit _ c => [c.describeAll.toText]
  | .function .. => []

def driven (s : Simulation) (literal : Option String) : Except Problem Simulation :=
  match literal with
  | none => .ok s
  | some text =>
    match parseLiteral text.toList with
    | .error e => .error (.input e)
    | .ok none => .ok s
    | .ok (some v) =>
      match s.setInput v with
      | (_, .error f) => .error (.fault f)
      | (s, .ok ()) => .ok s

/-- What is printed, given the text of the registry document or why it could not be read. -/
def run (o : Options) (document : Except String String) : Except Problem (List String) := do
  let text ← document.mapError (.unreadable o.registry)
  let registry ← (Registry.ofText text).mapError .fault
  let root ← (Gate.ofTemplate registry o.gate).mapError .fault
  let simulation ← (Simulation.new root).mapError .fault
  let simulation ← driven simulation o.input
  return (if o.describe then description root else []) ++ report simulation o.ticks

end TickCircuit.CommandLine
