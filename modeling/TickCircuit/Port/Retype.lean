import TickCircuit.Fault
import TickCircuit.Port.Basic
/-!
Retyping of ports. Sub-ports are kept, dropped or made as the new interface has room for them; a
sub-port that carries a link is never dropped.
-/
namespace TickCircuit.Port

mutual
/-- Whether the interface has room for every linked sub-port. -/
def checkRetype (target : Interface) : Port → Except Fault Unit
  | ⟨_, _, _, subs⟩ => checkRetypeFrom target 0 subs
def checkRetypeFrom (target : Interface) (index : Nat) : List Port → Except Fault Unit
  | [] => .ok ()
  | p :: ps => do
    match target.child? index with
    | some child => checkRetype child p
    | none => if p.isLinked then throw (.orphanedLinks target index)
    checkRetypeFrom target (index + 1) ps
end

mutual
/-- The port with a new interface, for one that passes `checkRetype`. -/
def retyped (target : Interface) : Port → Port
  | ⟨direction, _, links, subs⟩ =>
    match target with
    | .collection _ cs => ⟨direction, target, links, retypedTo direction cs subs⟩
    | .rest _ e => ⟨direction, target, links, retypedEach e subs⟩
    | .any _ => ⟨direction, target, links, retypedEach (.any none) subs⟩
    | .bit _ | .none _ => ⟨direction, target, links, []⟩
def retypedTo (d : Direction) (targets : List Interface) : List Port → List Port
  | [] => newAll d targets
  | p :: ps =>
    match targets with
    | [] => []
    | c :: cs => retyped c p :: retypedTo d cs ps
def retypedEach (target : Interface) : List Port → List Port
  | [] => []
  | p :: ps => retyped target p :: retypedEach target ps
end

def retype (p : Port) (target : Interface) : Port × Except Fault Unit :=
  match checkRetype target p with
  | .ok () => (p.retyped target, .ok ())
  | .error e => (p, .error e)

theorem retype_error {p : Port} {target : Interface} {e : Fault}
    (h : checkRetype target p = .error e) : p.retype target = (p, .error e) := by
  simp [retype, h]

mutual
/-- The type that the wiring of a port implies: that of its first link, else those of its
sub-ports, else none at all. Bits and `none` are what they are. -/
def inferred (linkType : LinkId → Except Fault Interface) : Port → Except Fault Interface
  | ⟨_, interface, links, subs⟩ =>
    match interface with
    | .bit _ | .none _ => .ok interface
    | _ =>
      match links with
      | id :: _ => linkType id
      | [] =>
        if subs.isEmpty then .ok (.none none)
        else .collection none <$> inferredAll linkType subs
def inferredAll (linkType : LinkId → Except Fault Interface) :
    List Port → Except Fault (List Interface)
  | [] => .ok []
  | p :: ps => do
    let i ← inferred linkType p
    let is ← inferredAll linkType ps
    return i :: is
end

end TickCircuit.Port
