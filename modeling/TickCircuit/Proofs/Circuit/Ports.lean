import TickCircuit.Gate.Wiring
import TickCircuit.Proofs.Port.Resolve
/-!
The ports of a circuit at which links can end, seen from either side. Links go from output ports
to input ports, so a direction and a node name a port. Main statements: what the operations on
links do to each port (`port?_mapPort`).
-/
namespace TickCircuit

/-- The end that is bound to a port of direction `d`. -/
def Link.endAt (l : Link) : Direction → Endpoint
  | .output => l.source
  | .input => l.sink

def Gate.port (g : Gate) : Direction → Port
  | .output => g.output
  | .input => g.input

def Gate.mapPort (f : Port → Port) : Direction → Gate → Gate
  | .output => mapOutput f
  | .input => mapInput f

theorem Gate.port_mapPort (f : Port → Port) (d e : Direction) (g : Gate) :
    (g.mapPort f d).port e = if d = e then f (g.port e) else g.port e := by
  cases g <;> cases d <;> cases e <;> rfl

theorem Gate.mapPort_congr {f g : Port → Port} {d : Direction} {a : Gate}
    (h : f (a.port d) = g (a.port d)) : a.mapPort f d = a.mapPort g d := by
  cases a <;> cases d <;>
    simp_all [mapPort, mapInput, mapOutput, mapFace, port, input, output, face]

theorem Gate.mapPort_id (d : Direction) (g : Gate) : g.mapPort id d = g := by
  cases g <;> cases d <;> rfl

namespace Circuit

/-- The port of direction `d` at a node; the inner input is an output seen from inside. -/
def port? (c : Circuit Gate) : Direction → Node → Option Port
  | d, .gate id => (c.gate? id).map (·.port d)
  | .output, .boundary => some c.innerInput
  | .input, .boundary => some c.innerOutput
  | _, .host => none

def end? (c : Circuit Gate) (d : Direction) (id : LinkId) : Option Endpoint :=
  (c.links.get? id).map (·.endAt d)

def mapPort (c : Circuit Gate) (f : Port → Port) : Direction → Node → Circuit Gate
  | .output => c.mapSource f
  | .input => c.mapSink f

variable {c : Circuit Gate}

theorem source_eq_ok {n : Node} {p : Port} : c.source n = .ok p ↔ c.port? .output n = some p := by
  cases n with
  | gate id => cases h : c.gate? id <;> simp [source, port?, Gate.port, h]
  | boundary => simp [source, port?]
  | host => simp [source, port?]

theorem sink_eq_ok {n : Node} {p : Port} : c.sink n = .ok p ↔ c.port? .input n = some p := by
  cases n with
  | gate id => cases h : c.gate? id <;> simp [sink, port?, Gate.port, h]
  | boundary => simp [sink, port?]
  | host => simp [sink, port?]

theorem links_mapPort (f : Port → Port) (d : Direction) (n : Node) :
    (c.mapPort f d n).links = c.links := by
  cases d <;> cases n <;> rfl

theorem nextGate_mapPort (f : Port → Port) (d : Direction) (n : Node) :
    (c.mapPort f d n).nextGate = c.nextGate := by
  cases d <;> cases n <;> rfl

theorem registry_mapPort (f : Port → Port) (d : Direction) (n : Node) :
    (c.mapPort f d n).registry = c.registry := by
  cases d <;> cases n <;> rfl

theorem gateIds_mapPort (f : Port → Port) (d : Direction) (n : Node) :
    (c.mapPort f d n).gateIds = c.gateIds := by
  cases d <;> cases n <;> first | rfl | exact Entries.keys_modify _ _ _

theorem mapPort_gate (f : Port → Port) (d : Direction) (id : GateId) :
    c.mapPort f d (.gate id) = c.modifyGate id (·.mapPort f d) := by
  cases d <;> rfl

theorem port?_mapPort (f : Port → Port) (d e : Direction) (n m : Node) :
    (c.mapPort f d n).port? e m =
      if d = e ∧ n = m then (c.port? e m).map f else c.port? e m := by
  cases n with
  | gate id =>
    rw [mapPort_gate]
    cases m with
    | gate j =>
      simp only [port?, gate?, modifyGate, Entries.get?_modify, Node.gate.injEq]
      by_cases hj : id = j
      · cases hg : Entries.get? j c.gates <;> by_cases hd : d = e <;>
          simp [hj, hd, Gate.port_mapPort]
      · simp [hj]
    | boundary => cases e <;> simp [port?, modifyGate]
    | host => cases e <;> simp [port?]
  | boundary =>
    cases d <;> cases e <;> cases m <;> simp [mapPort, mapSource, mapSink, port?, gate?]
  | host => cases d <;> cases e <;> cases m <;> simp [mapPort, mapSource, mapSink, port?]

theorem mapPort_congr {f g : Port → Port} {d : Direction} {n : Node}
    (h : ∀ p, c.port? d n = some p → f p = g p) : c.mapPort f d n = c.mapPort g d n := by
  cases n with
  | gate id =>
    have hid : ∀ a, Entries.get? id c.gates = some a → a.mapPort f d = a.mapPort g d :=
      fun a ha => Gate.mapPort_congr (h _ (by simp [port?, gate?, ha]))
    rw [mapPort_gate, mapPort_gate, modifyGate, modifyGate, Entries.modify_congr hid]
  | boundary => cases d <;> simp [mapPort, mapSource, mapSink, h _ rfl]
  | host => cases d <;> rfl

theorem mapPort_eq_self {f : Port → Port} {d : Direction} {n : Node}
    (h : ∀ p, c.port? d n = some p → f p = p) : c.mapPort f d n = c := by
  rw [mapPort_congr (g := id) h]
  cases n with
  | gate j =>
    have hg : ∀ g : Gate, Entries.get? j c.gates = some g → g.mapPort id d = g :=
      fun g _ => g.mapPort_id d
    rw [mapPort_gate, modifyGate, Entries.modify_eq_self hg]
  | boundary => cases d <;> rfl
  | host => cases d <;> rfl

end Circuit
end TickCircuit
