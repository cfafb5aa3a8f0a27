import TickCircuit.Fault
import TickCircuit.Port.Basic
/-!
Wiring of ports. `resolve` is a dry run that changes nothing: it says where a path ends and what
would be there. `attach` then makes the missing sub-ports and binds a link.
-/
namespace TickCircuit

/-- Where a path ends: its indices, the interface there, and whether a link is there or below. -/
structure Leaf where
  path : Path
  interface : Interface
  isOccupied : Bool

namespace Port

/-- Follows `steps` below `port`, which is none where it would have to be made. -/
def follow (whole : PathSpec) (port : Option Port) (interface : Interface) :
    PathSpec → Except Fault Leaf
  | [] => .ok ⟨[], interface, port.any isLinked⟩
  | step :: steps =>
    let index := step.indexAt (port.elim [] subs).length
    if step = .next ∧ !interface.isExpandable then .error (.notExpandable interface)
    else if interface.isExpandable ∧ maxSubPorts ≤ index then
      .error (.invalidPath ⟨whole.text, .pastLimit index⟩)
    else
      match interface.child? index with
      | none => .error (.invalidPath ⟨whole.text, .noSubPort interface index⟩)
      | some child =>
        let sub := port.bind (·.subs[index]?)
        (fun leaf => { leaf with path := index :: leaf.path })
          <$> follow whole sub (sub.elim child (·.interface)) steps

def resolve (p : Port) (spec : PathSpec) : Except Fault Leaf :=
  follow spec (some p) p.interface spec

/-- `count` more sub-ports from index `start` on, or the first index that has none. -/
def fresh (d : Direction) (interface : Interface) (start : Nat) : Nat → List Port × Option Nat
  | 0 => ([], none)
  | count + 1 =>
    match interface.child? start with
    | none => ([], some start)
    | some child =>
      let (more, missing) := fresh d interface (start + 1) count
      (new d child :: more, missing)

/-- Makes the sub-ports that a path lacks, as far as the interfaces have them. -/
def grow : Path → Port → Port × Option PathError
  | [], p => (p, none)
  | i :: rest, p =>
    let (more, missing) := fresh p.direction p.interface p.subs.length (i + 1 - p.subs.length)
    let subs := p.subs ++ more
    match missing, subs[i]? with
    | some next, _ =>
      ({ p with subs }, some ⟨Path.text (i :: rest), .noSubPort p.interface next⟩)
    | none, none => ({ p with subs }, none)
    | none, some sub =>
      let (sub, error) := grow rest sub
      ({ p with subs := subs.set i sub }, error)

/-- Binds a link at a path; sub-ports made on the way stay even where the path has no end. -/
def attach (p : Port) (path : Path) (link : LinkId) : Port × Except Fault Unit :=
  match grow path p with
  | (p, some e) => (p, .error (.invalidPath e))
  | (p, none) => (p.modifyAt (fun q => { q with links := q.links ++ [link] }) path, .ok ())

/-- Whether a link carrying `data` may be bound at `leaf`; an input takes one link only. -/
def checkLeaf (d : Direction) (leaf : Leaf) (data : Interface) : Except Fault Unit :=
  if !leaf.interface.admits data then .error (.interfaceMismatch leaf.interface data)
  else if d = .input ∧ leaf.isOccupied then .error (.inputOccupied leaf.path)
  else .ok ()

/-- Resolves, checks and binds; nothing is made before every check has passed. -/
def connect (p : Port) (link : LinkId) (spec : PathSpec) (data : Interface) :
    Port × Except Fault Path :=
  match p.resolve spec with
  | .error e => (p, .error e)
  | .ok leaf =>
    match checkLeaf p.direction leaf data with
    | .error e => (p, .error e)
    | .ok () =>
      let (p, bound) := p.attach leaf.path link
      (p, (fun _ => leaf.path) <$> bound)

def isBound (p : Port) (path : Path) (link : LinkId) : Bool :=
  (p.sub? path).any (·.links.contains link)

def detach (p : Port) (path : Path) (link : LinkId) : Port :=
  p.modifyAt (fun q => { q with links := q.links.filter (· ≠ link) }) path

def speculate (p : Port) : Port × Except Fault Nat :=
  let index := p.subs.length
  match p.interface.isExpandable, p.interface.child? index with
  | true, some child =>
    if maxSubPorts ≤ index then
      (p, .error (.invalidPath ⟨Text.countText index, .pastLimit index⟩))
    else ({ p with subs := p.subs ++ [new p.direction child] }, .ok index)
  | _, _ => (p, .error (.notExpandable p.interface))

/-- Drops the sub-ports at the end that carry no links, and says how many they were. -/
def retract (p : Port) : Port × Except Fault Nat :=
  if p.interface.isExpandable then
    let kept := (p.subs.reverse.dropWhile (!isLinked ·)).reverse
    ({ p with subs := kept }, .ok (p.subs.length - kept.length))
  else (p, .error (.notExpandable p.interface))

end Port
end TickCircuit
