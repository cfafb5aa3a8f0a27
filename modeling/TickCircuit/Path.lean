import TickCircuit.Interface.Text
import TickCircuit.Text.Split
/-!
Paths to sub-ports, root first. A path names each sub-port by its index; a path that is asked for
may also say `*`, the next sub-port that a port has room for.
-/
namespace TickCircuit
open Text

abbrev Path := List Nat

def Path.text (p : Path) : List Char := intercalate ['/'] (p.map countText)

inductive Step where
  | index (n : Nat)
  | next
deriving DecidableEq

abbrev PathSpec := List Step

def Step.indexAt (count : Nat) : Step → Nat
  | .index n => n
  | .next => count

def Step.text : Step → List Char
  | .index n => countText n
  | .next => ['*']

def PathSpec.text (p : PathSpec) : List Char := intercalate ['/'] (p.map Step.text)

def Path.spec (p : Path) : PathSpec := p.map .index

theorem Path.text_spec (p : Path) : PathSpec.text p.spec = Path.text p := by
  simp [PathSpec.text, Path.text, Path.spec, Function.comp_def, Step.text]

def maxSubPorts : Nat := 1024

inductive PathFlaw where
  | unreadableStep (text : List Char)
  | pastLimit (index : Nat)
  | noSubPort (interface : Interface) (index : Nat)
  | gone
deriving DecidableEq

def PathFlaw.message : PathFlaw → String
  | .unreadableStep s => "`" ++ String.ofList s ++ "` is neither an index nor `*`"
  | .pastLimit n => "sub-port " ++ n.repr ++ " is past the limit of " ++ maxSubPorts.repr
  | .noSubPort i n => "`" ++ i.text ++ "` has no sub-port " ++ n.repr
  | .gone => "sub-port no longer exists"

structure PathError where
  path : List Char
  flaw : PathFlaw
deriving DecidableEq

def Step.parse (text : List Char) : Option Step :=
  if text = ['*'] then some .next else .index <$> readCount text

/-- Steps are parted by `/`, and blank ones do not count. -/
def PathSpec.parse (text : List Char) : Except PathError PathSpec :=
  let parts := ((splitEvery '/' text).map trim).filter (· ≠ [])
  parts.mapM fun part =>
    match Step.parse part with
    | some step => .ok step
    | none => .error ⟨text, .unreadableStep part⟩

end TickCircuit
