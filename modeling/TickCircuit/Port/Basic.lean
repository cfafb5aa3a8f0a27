import TickCircuit.Link
/-!
Ports are typed ends of gates. A port's sub-ports follow its interface: a collection has one for
each child from the start, while rests and `any` grow theirs as links are wired in.
-/
namespace TickCircuit

inductive Direction where
  | input
  | output
deriving DecidableEq

structure Port where
  direction : Direction
  interface : Interface
  /-- Links attached to the port itself, first one first. -/
  links : List LinkId
  subs : List Port

namespace Port

mutual
def new (d : Direction) : Interface → Port
  | .collection l cs => ⟨d, .collection l cs, [], newAll d cs⟩
  | i => ⟨d, i, [], []⟩
def newAll (d : Direction) : List Interface → List Port
  | [] => []
  | c :: cs => new d c :: newAll d cs
end

theorem length_newAll (d : Direction) (cs : List Interface) : (newAll d cs).length = cs.length := by
  induction cs with
  | nil => rfl
  | cons c cs ih => simp [newAll, ih]

mutual
def isLinked : Port → Bool
  | ⟨_, _, links, subs⟩ => !links.isEmpty || areLinked subs
def areLinked : List Port → Bool
  | [] => false
  | p :: ps => isLinked p || areLinked ps
end

mutual
/-- The links of the port and of everything below it, parents first. -/
def allLinks : Port → List LinkId
  | ⟨_, _, links, subs⟩ => links ++ linksBelow subs
def linksBelow : List Port → List LinkId
  | [] => []
  | p :: ps => allLinks p ++ linksBelow ps
end

def sub? (p : Port) : Path → Option Port
  | [] => some p
  | i :: rest => p.subs[i]? >>= (·.sub? rest)

def modifyAt (f : Port → Port) : Path → Port → Port
  | [], p => f p
  | i :: rest, p => { p with subs := p.subs.modify i (modifyAt f rest) }

end Port
end TickCircuit
