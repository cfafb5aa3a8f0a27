import TickCircuit.Fault
import TickCircuit.Port.Basic
/-!
Values at ports. An input reads what its links carried last tick, and an output writes what its
links carry from now on.
-/
namespace TickCircuit.Port

def carried (t : LinkTable) (links : List LinkId) : Option Value := do
  let id ← links.head?
  let link ← t.get? id
  link.last

mutual
/-- The first link counts where it carries a value. Else bits are low, and what has parts is read
part by part; where a part is without a value, so is the whole. -/
def read (t : LinkTable) : Port → Except Fault (Option Value)
  | ⟨_, interface, links, subs⟩ =>
    match carried t links with
    | some v => ((fun _ => some v) <$> interface.check v).mapError .type
    | none =>
      match interface with
      | .bit _ => .ok (some .low)
      | .collection .. | .rest .. => (Option.map (.collection none)) <$> readAll t subs
      | .any _ =>
        if subs.isEmpty then .ok none else (Option.map (.collection none)) <$> readAll t subs
      | .none _ => .ok none
def readAll (t : LinkTable) : List Port → Except Fault (Option (List Value))
  | [] => .ok (some [])
  | p :: ps =>
    match read t p with
    | .error e => .error e
    | .ok none => .ok none
    | .ok (some v) => (Option.map (v :: ·)) <$> readAll t ps
end

def writeLinks (v : Value) (links : List LinkId) (t : LinkTable) : LinkTable :=
  links.foldl (fun t id => t.write id v) t

mutual
/-- Every link at a port gets the value, and the links of its sub-ports get the parts. -/
def write (v : Value) (t : LinkTable) : Port → LinkTable × Except Fault Unit
  | ⟨direction, interface, links, subs⟩ =>
    if direction = .input then (t, .error .inputWritten)
    else
      match interface.check v with
      | .error e => (t, .error (.type e))
      | .ok () => writeAll (v.children?.getD []) (writeLinks v links t) subs
def writeAll (vs : List Value) (t : LinkTable) : List Port → LinkTable × Except Fault Unit
  | [] => (t, .ok ())
  | p :: ps =>
    match vs with
    | [] => (t, .ok ())
    | v :: vs =>
      match write v t p with
      | (t, .error e) => (t, .error e)
      | (t, .ok ()) => writeAll vs t ps
end

end TickCircuit.Port
