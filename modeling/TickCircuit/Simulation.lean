import TickCircuit.Gate.Tick
import TickCircuit.Port.Wiring
/-!
A root gate driven by a host through two links, one into its input and one out of its output.
-/
namespace TickCircuit

structure Simulation where
  root : Gate
  links : LinkTable
  ticks : Nat

namespace Simulation

def inputLink : LinkId := 0
def outputLink : LinkId := 1

def hostEnd : Endpoint := ⟨.host, []⟩
def rootEnd : Endpoint := ⟨.gate 0, []⟩

def new (root : Gate) : Except Fault Simulation := do
  let (input, bound) := root.input.connect inputLink [] root.input.interface
  let path ← bound
  let (output, bound) := root.output.attach [] outputLink
  bound
  let toRoot := Link.seeded hostEnd ⟨.gate 0, path⟩ root.input.interface none
  let toHost := Link.seeded rootEnd hostEnd root.output.interface none
  return ⟨(root.mapInput fun _ => input).mapOutput fun _ => output,
    ⟨[(inputLink, toRoot), (outputLink, toHost)], 2⟩, 0⟩

/-- Drives the input of the root from now on. -/
def setInput (s : Simulation) (v : Value) : Simulation × Except Fault Unit :=
  match s.root.input.interface.check v with
  | .error e => (s, .error (.type e))
  | .ok () =>
    if s.links.has inputLink then
      let set := fun (l : Link) => { l with current := some v, last := some v }
      ({ s with links := s.links.modify inputLink set }, .ok ())
    else (s, .error (.linkNotFound inputLink))

def tick (s : Simulation) : Simulation :=
  let (root, links) := s.root.update s.links
  ⟨root, links.updateAll, s.ticks + 1⟩

def output (s : Simulation) : Option Value := s.links.get? outputLink >>= (·.last)

def run (s : Simulation) : Nat → Simulation × List (Option Value)
  | 0 => (s, [])
  | n + 1 =>
    let next := s.tick
    let (last, outputs) := run next n
    (last, next.output :: outputs)

theorem length_run (s : Simulation) (n : Nat) : (s.run n).2.length = n := by
  induction n generalizing s with
  | zero => rfl
  | succ n ih => simp [run, ih]

end Simulation
end TickCircuit
