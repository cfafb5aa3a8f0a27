import TickCircuit.Proofs.Gate.Each
import TickCircuit.Proofs.Gate.Ids
import TickCircuit.Proofs.Gate.Running
import TickCircuit.Proofs.Port.Mirror
/-!
Relays, which are function gates that pass on one bit as it is or turned over, and lines of them. A
relay to which one link alone leads gives out what it makes of that link (`Sound.update_relay`). In
a line, each relay feeds the next, the first is fed from the boundary and the last one feeds it.
Main statement: in a tick every value moves on by one link, through one relay (`Line.ticked`).
-/
namespace TickCircuit

def Value.IsBit (v : Value) : Prop := ∃ l b, v = .bit l b

theorem Value.isBit_getD {o : Option Value} (h : ∀ v, o = some v → v.IsBit) :
    (o.getD .low).IsBit := by
  cases o with
  | none => exact ⟨none, false, rfl⟩
  | some v => exact h v rfl

inductive Relay where
  | buffer
  | inverter
deriving DecidableEq

namespace Relay

def transformName : Relay → String
  | .buffer => "buffer"
  | .inverter => "not"

def transform : Relay → Transform
  | .buffer => .pure .ok
  | .inverter => Builtin.demanding Value.invert

def value : Relay → Value → Value
  | .buffer => id
  | .inverter => Value.invert

theorem find?_transformName (r : Relay) : Builtin.find? r.transformName = some r.transform := by
  cases r <;> rfl

theorem run_transform (r : Relay) (v : Value) :
    r.transform.run (some v) = (r.transform, .ok (some (r.value v))) := by
  cases r <;> rfl

theorem isBit_value (r : Relay) {v : Value} (h : v.IsBit) : (r.value v).IsBit := by
  obtain ⟨l, b, rfl⟩ := h
  cases r
  · exact ⟨l, b, rfl⟩
  · exact ⟨l, !b, rfl⟩

end Relay

theorem Interface.accepts_bit {i : Interface} (hi : i.isBit) {v : Value} (hv : v.IsBit) :
    i.accepts v = true := by
  obtain ⟨l, b, rfl⟩ := hv
  cases i with
  | bit m => rw [accepts]
  | _ => cases hi

theorem Interface.isNone_of_isBit {i : Interface} (h : i.isBit) : i.isNone = false := by
  cases i with
  | bit m => rfl
  | _ => cases h

theorem Port.Shaped.eq_bit {d : Direction} {p : Port} (h : p.Shaped d) (hi : p.interface.isBit) :
    ∃ l, p = ⟨d, .bit l, p.links, []⟩ := by
  have hdirection := h.fits.direction
  have hclosed := h.mirrors.closed
  obtain ⟨e, i, links, subs⟩ := p
  cases i with
  | bit l =>
    cases hdirection
    cases hclosed l (.inl rfl)
    exact ⟨l, rfl⟩
  | _ => cases hi

theorem Port.read_bit {d : Direction} {p : Port} (h : p.Shaped d) (hi : p.interface.isBit)
    {id : LinkId} (hl : p.links = [id]) {t : LinkTable} {l : Link} (ht : t.get? id = some l)
    (hv : ∀ v, l.last = some v → v.IsBit) : p.read t = .ok (some (l.last.getD .low)) := by
  obtain ⟨m, hp⟩ := h.eq_bit hi
  rw [hp, hl]
  have hcarried : carried t [id] = l.last := by simp [carried, ht]
  rw [read, hcarried]
  cases hlast : l.last with
  | none => rfl
  | some v =>
    obtain ⟨k, b, rfl⟩ := hv v hlast
    rfl

namespace Gate

inductive Works (r : Relay) : Gate → Prop where
  | mk {face : Face} {name : String} (fault : face.fault = none) :
    Works r (.function face name (some r.transform))

structure Relays (r : Relay) (g : Gate) : Prop where
  works : g.Works r
  bits : ∀ d, (g.port d).interface.isBit

theorem Works.mapFace {r : Relay} {g : Gate} (h : g.Works r) {f : Face → Face}
    (hf : ∀ face, (f face).fault = face.fault) : (g.mapFace f).Works r := by
  obtain ⟨hfault⟩ := h
  exact ⟨(hf _).trans hfault⟩

theorem portBlind_works (r : Relay) : PortBlind (Works r) := by
  intro f d g h
  cases d <;> exact h.mapFace fun _ => rfl

namespace Relays
variable {r : Relay} {g : Gate}

theorem fault_eq_none (h : g.Relays r) : g.face.fault = none := by
  obtain ⟨⟨hfault⟩, -⟩ := h
  exact hfault

theorem update (h : g.Relays r) (hs : g.PortsShaped) {t : LinkTable} {v : Value} (hv : v.IsBit)
    (hread : g.input.read t = .ok (some v)) :
    (g.update t).1 = g ∧ g.emission t = some (r.value v) := by
  obtain ⟨@⟨face, name, hfault⟩, hbits⟩ := h
  have hinput : face.input.interface.isBit := hbits .input
  have houtput : face.output.interface.isBit := hbits .output
  have hin : readInput face t = .ok (some v) := by
    rw [readInput, Interface.isNone_of_isBit hinput]
    exact hread
  have haccepts := Interface.accepts_bit houtput (r.isBit_value hv)
  have hwrite : (writeOutput face (some (r.value v)) t).2 = .ok () := by
    rw [writeOutput, Interface.isNone_of_isBit houtput]
    exact congrArg Prod.snd (Port.write_eq (hs .output) haccepts t)
  constructor
  · have hface : withFault face (.ok ()) = face := by
      rw [withFault, ← hfault]
    simp only [Gate.update, applyTransform, hin, r.run_transform, hwrite, hface]
  · have haccepted : face.accepted (some (r.value v)) = some (r.value v) := by
      simp [Face.accepted, haccepts]
    simp only [emission, hin, r.run_transform]
    exact haccepted

end Relays
end Gate

namespace Circuit

/-- The node at which link `k` of a line begins or ends. -/
def lineNode (stations : List (GateId × Relay)) : Direction → Nat → Node
  | .output, 0 => .boundary
  | .output, k + 1 | .input, k => (stations[k]?).elim .boundary (.gate ·.1)

/-- The gates of the circuit are relays in a line, from the boundary and back to it. -/
structure Line (stations : List (GateId × Relay)) (c : Circuit Gate) : Prop where
  sound : c.Sound
  nodup : (stations.map (·.1)).Nodup
  station : ∀ s ∈ stations, ∃ g, c.gate? s.1 = some g ∧ g.Relays s.2
  only : ∀ {id g}, c.gate? id = some g → ∃ r, (id, r) ∈ stations
  ends : ∀ d k, c.end? d k =
    if k ≤ stations.length then some ⟨lineNode stations d k, []⟩ else none

/-- Each link carries what is said, and will go on to. -/
def Holds (c : Circuit Gate) (carried : Nat → Option Value) : Prop :=
  ∀ k l, c.links.get? k = some l → l.current = carried k ∧ l.last = carried k

def shifted (rs : List Relay) (v : Value) (carried : Nat → Option Value) : Nat → Option Value
  | 0 => some v
  | k + 1 => (rs[k]?).map fun r => r.value ((carried k).getD .low)

theorem Wired.linksAt_eq_singleton {c : Circuit Gate} (h : c.Wired) {d : Direction} {n : Node}
    {p : Port} (hp : c.port? d n = some p) (path : Path) {id : LinkId}
    (hid : ∀ j, c.end? d j = some ⟨n, path⟩ ↔ j = id) : p.linksAt path = [id] := by
  refine List.perm_singleton.mp (List.perm_iff_count.mpr fun j => ?_)
  rw [h.count hp, List.count_singleton]
  by_cases hj : j = id
  · rw [if_pos ((hid j).mpr hj), hj]
    simp
  · rw [if_neg fun he => hj ((hid j).mp he)]
    simp [Ne.symm hj]

theorem Wired.read_bit {c : Circuit Gate} (h : c.Wired) {d : Direction} {n : Node} {p : Port}
    (hp : c.port? d n = some p) (hi : p.interface.isBit) {id : LinkId}
    (hid : ∀ j, c.end? d j = some ⟨n, []⟩ ↔ j = id) {l : Link} (hl : c.links.get? id = some l)
    (hv : ∀ v, l.last = some v → v.IsBit) : p.read c.links = .ok (some (l.last.getD .low)) :=
  Port.read_bit (h.shaped hp) hi (h.linksAt_eq_singleton hp [] hid) hl hv

theorem Sound.update_relay {c : Circuit Gate} (h : c.Sound) {gate : GateId} {g : Gate} {r : Relay}
    (hg : c.gate? gate = some g) (hr : g.Relays r) {id : LinkId}
    (hid : ∀ j, c.end? .input j = some ⟨.gate gate, []⟩ ↔ j = id) {l : Link}
    (hl : c.links.get? id = some l) (hv : ∀ v, l.last = some v → v.IsBit) :
    (g.update c.links).1 = g ∧ g.emission c.links = some (r.value (l.last.getD .low)) := by
  have hp : c.port? .input (.gate gate) = some g.input := by
    rw [port?, hg]
    rfl
  have hread := h.wired.read_bit hp (hr.bits .input) hid hl hv
  exact hr.update (h.children hg).shaped (Value.isBit_getD hv) hread

theorem relays_of_same_types {c c' : Circuit Gate} {gate : GateId} {g g' : Gate} {r : Relay}
    (hg : c.gate? gate = some g) (hr : g.Relays r) (hg' : c'.gate? gate = some g')
    (hworks : g'.Works r)
    (hsame : ∀ d, c'.interface? d (.gate gate) = c.interface? d (.gate gate)) : g'.Relays r := by
  refine ⟨hworks, fun d => ?_⟩
  have htype := hsame d
  simp only [interface?, port?, hg, hg', Option.map_some, Option.some.injEq] at htype
  rw [htype]
  exact hr.bits d

theorem end?_ticked (c : Circuit Gate) (face : Face) (outer : LinkTable) (d : Direction)
    (id : LinkId) : (c.ticked face outer).end? d id = c.end? d id := by
  rw [end?, end?, get?_ticked, Option.map_map]
  rfl

theorem get?_ticked_of_emitted {c : Circuit Gate} {id : LinkId} {l : Link}
    (hl : c.links.get? id = some l) {n : Node} (hsource : l.source = ⟨n, []⟩) {face : Face}
    {outer : LinkTable} {v : Value} (hv : c.emitted face outer n = some v) :
    (c.ticked face outer).links.get? id = some { l with current := some v, last := some v } := by
  rw [get?_ticked, hl, Option.map_some, settled, hsource, hv]
  rfl

namespace Line
variable {stations : List (GateId × Relay)} {c : Circuit Gate}

theorem lineNode_of_getElem? {k : Nat} {s : GateId × Relay} (h : stations[k]? = some s) :
    lineNode stations .input k = .gate s.1 ∧ lineNode stations .output (k + 1) = .gate s.1 := by
  simp [lineNode, h]

theorem lineNode_length : lineNode stations .input stations.length = .boundary := by
  simp [lineNode]

theorem lineNode_injective (h : Line stations c) {j k : Nat} (hj : j ≤ stations.length)
    (hk : k ≤ stations.length) (he : lineNode stations .input j = lineNode stations .input k) :
    j = k := by
  simp only [lineNode] at he
  cases hj' : stations[j]? with
  | none =>
    cases hk' : stations[k]? with
    | none =>
      rw [List.getElem?_eq_none_iff] at hj' hk'
      omega
    | some s => simp [hj', hk'] at he
  | some s =>
    cases hk' : stations[k]? with
    | none => simp [hj', hk'] at he
    | some s' =>
      have hid : s.1 = s'.1 := by simpa [hj', hk'] using he
      have hlt : j < (stations.map (·.1)).length := by
        rw [List.length_map]
        exact (List.getElem?_eq_some_iff.mp hj').1
      refine (List.getElem?_inj hlt h.nodup).mp ?_
      rw [List.getElem?_map, List.getElem?_map, hj', hk', Option.map_some, Option.map_some, hid]

theorem end?_input_iff (h : Line stations c) {k : Nat} (hk : k ≤ stations.length) (j : LinkId) :
    c.end? .input j = some ⟨lineNode stations .input k, []⟩ ↔ j = k := by
  rw [h.ends]
  by_cases hj : j ≤ stations.length
  · rw [if_pos hj, Option.some.injEq, Endpoint.mk.injEq]
    exact ⟨fun he => h.lineNode_injective hj hk he.1, fun he => he ▸ ⟨rfl, rfl⟩⟩
  · rw [if_neg hj]
    exact ⟨nofun, fun he => absurd (he ▸ hk) hj⟩

theorem linksAt_input (h : Line stations c) {k : Nat} (hk : k ≤ stations.length) {p : Port}
    (hp : c.port? .input (lineNode stations .input k) = some p) : p.links = [k] :=
  h.sound.wired.linksAt_eq_singleton hp [] (h.end?_input_iff hk)

theorem link (h : Line stations c) {carried : Nat → Option Value} (hc : c.Holds carried) {k : Nat}
    (hk : k ≤ stations.length) : ∃ l, c.links.get? k = some l ∧ l.last = carried k := by
  have hend := h.ends .input k
  rw [if_pos hk] at hend
  obtain ⟨l, hl, -⟩ := Option.map_eq_some_iff.mp hend
  exact ⟨l, hl, (hc k l hl).2⟩

theorem read_input (h : Line stations c) {carried : Nat → Option Value} (hc : c.Holds carried)
    (hbits : ∀ k v, carried k = some v → v.IsBit) {k : Nat} (hk : k ≤ stations.length) {p : Port}
    (hp : c.port? .input (lineNode stations .input k) = some p) (hi : p.interface.isBit) :
    p.read c.links = .ok (some ((carried k).getD .low)) := by
  obtain ⟨l, hl, hlast⟩ := h.link hc hk
  rw [← hlast]
  refine h.sound.wired.read_bit hp hi (h.end?_input_iff hk) hl fun v hv => ?_
  exact hbits k v (hlast ▸ hv)

theorem update_station (h : Line stations c) {carried : Nat → Option Value} (hc : c.Holds carried)
    (hbits : ∀ k v, carried k = some v → v.IsBit) {k : Nat} {s : GateId × Relay}
    (hs : stations[k]? = some s) {g : Gate} (hg : c.gate? s.1 = some g) :
    (g.update c.links).1 = g ∧ g.emission c.links = some (s.2.value ((carried k).getD .low)) := by
  obtain ⟨g', hg', hr⟩ := h.station s (List.mem_of_getElem? hs)
  rw [hg] at hg'
  cases hg'
  have hk : k ≤ stations.length := Nat.le_of_lt (List.getElem?_eq_some_iff.mp hs).1
  have hid := h.end?_input_iff hk
  rw [(lineNode_of_getElem? hs).1] at hid
  obtain ⟨l, hl, hlast⟩ := h.link hc hk
  rw [← hlast]
  exact h.sound.update_relay hg hr hid hl fun v hv => hbits k v (hlast ▸ hv)

theorem gate?_ticked (h : Line stations c) {carried : Nat → Option Value} (hc : c.Holds carried)
    (hbits : ∀ k v, carried k = some v → v.IsBit) (face : Face) (outer : LinkTable) (id : GateId) :
    (c.ticked face outer).gate? id = c.gate? id := by
  rw [Circuit.gate?_ticked]
  cases hg : c.gate? id with
  | none => rfl
  | some g =>
    obtain ⟨r, hr⟩ := h.only hg
    obtain ⟨k, hk⟩ := List.mem_iff_getElem?.mp hr
    rw [Option.map_some, (h.update_station hc hbits hk hg).1]

theorem ticked (h : Line stations c) {carried : Nat → Option Value} (hc : c.Holds carried)
    (hbits : ∀ k v, carried k = some v → v.IsBit) (hinput : c.innerInput.interface.isBit)
    {face : Face} {outer : LinkTable} {v : Value} (hv : v.IsBit)
    (hread : face.input.read outer = .ok (some v)) :
    c.TakesIn face outer ∧ Line stations (c.ticked face outer) ∧
      (c.ticked face outer).Holds (shifted (stations.map (·.2)) v carried) := by
  have haccepts := Interface.accepts_bit hinput hv
  have hgates := h.gate?_ticked hc hbits face outer
  refine ⟨.inr ⟨some v, hread, fun w hw => Option.some.inj hw ▸ haccepts⟩, ?_, ?_⟩
  · refine ⟨(h.sound.ticked face outer).1, h.nodup, ?_, ?_, fun d k => ?_⟩
    · intro s hs
      rw [hgates]
      exact h.station s hs
    · intro id g hg
      rw [hgates] at hg
      exact h.only hg
    · rw [end?_ticked, h.ends]
  · intro k l' hl'
    obtain ⟨l, hl, -⟩ := Option.map_eq_some_iff.mp (get?_ticked c face outer k ▸ hl')
    have hend : c.end? .output k = some l.source := by
      rw [end?, hl]
      rfl
    rw [h.ends] at hend
    split at hend
    next hk =>
      have hsource := (Option.some.inj hend).symm
      suffices hemitted : c.emitted face outer (lineNode stations .output k) =
          shifted (stations.map (·.2)) v carried k by
        have hsome : ∃ w, shifted (stations.map (·.2)) v carried k = some w := by
          cases k with
          | zero => exact ⟨v, rfl⟩
          | succ k => simp [shifted, List.getElem?_eq_getElem hk]
        obtain ⟨w, hw⟩ := hsome
        rw [get?_ticked_of_emitted hl hsource (hemitted.trans hw)] at hl'
        cases hl'
        exact ⟨hw.symm, hw.symm⟩
      cases k with
      | zero =>
        simp [lineNode, emitted, intake, hread, Except.toOption, shifted, haccepts]
      | succ k =>
        obtain ⟨s, hs⟩ : ∃ s, stations[k]? = some s := ⟨_, List.getElem?_eq_getElem hk⟩
        obtain ⟨g, hg, -⟩ := h.station s (List.mem_of_getElem? hs)
        rw [(lineNode_of_getElem? hs).2, emitted, hg, Option.bind_some,
          (h.update_station hc hbits hs hg).2]
        simp [shifted, hs]
    next => cases hend

end Line

theorem isBit_shifted {rs : List Relay} {v : Value} {carried : Nat → Option Value} (hv : v.IsBit)
    (hbits : ∀ k v, carried k = some v → v.IsBit) :
    ∀ k w, shifted rs v carried k = some w → w.IsBit := by
  intro k w h
  cases k with
  | zero =>
    cases h
    exact hv
  | succ k =>
    obtain ⟨r, -, rfl⟩ := Option.map_eq_some_iff.mp h
    exact r.isBit_value (Value.isBit_getD (hbits k))

/-- What the links of a line carry after `t` ticks, in each of which a value of `v` came in. -/
def heldAfter (rs : List Relay) (v : Nat → Value) : Nat → Nat → Option Value
  | 0 => fun _ => none
  | t + 1 => shifted rs (v t) (heldAfter rs v t)

variable {rs : List Relay} {v : Nat → Value}

theorem isBit_heldAfter (hv : ∀ t, (v t).IsBit) (t : Nat) :
    ∀ k w, heldAfter rs v t k = some w → w.IsBit := by
  induction t with
  | zero => exact fun k w h => by cases h
  | succ t ih => exact isBit_shifted (hv t) ih

/-- A value is behind `k` relays, and has been through all of them, `k` ticks after it came in. -/
theorem heldAfter_eq {t k : Nat} (ht : k ≤ t) (hk : k ≤ rs.length) : heldAfter rs v (t + 1) k =
    some ((rs.take k).foldl (fun w r => r.value w) (v (t - k))) := by
  induction k generalizing t with
  | zero => rfl
  | succ k ih =>
    obtain ⟨t, rfl⟩ : ∃ t', t = t' + 1 := ⟨t - 1, by omega⟩
    have hbefore := @ih t (by omega) (by omega)
    rw [heldAfter, shifted, hbefore, List.getElem?_eq_getElem hk, Option.map_some,
      Option.getD_some, List.take_succ_eq_append_getElem hk, List.foldl_append, Nat.add_sub_add_right]
    rfl

end Circuit

namespace Simulation

/-- A line of relays as the root of a simulation. -/
structure Hosts (s : Simulation) (stations : List (GateId × Relay)) (face : Face)
    (c : Circuit Gate) : Prop where
  root : s.root = .circuit face c
  sound : (Gate.circuit face c).Sound
  line : Circuit.Line stations c
  input : face.input.interface.isBit ∧ face.input.links = [inputLink]
  output : face.output.interface.isBit ∧ face.output.links = [outputLink]
  fault : face.fault = none
  links : ∃ a b, s.links.entries = [(inputLink, a), (outputLink, b)]

/-- A simulation that is given a value before each tick, after `t` ticks. -/
def fed (s : Simulation) (v : Nat → Value) : Nat → Simulation
  | 0 => s
  | t + 1 => ((fed s v t).setInput (v t)).1.tick

namespace Hosts
variable {s : Simulation} {stations : List (GateId × Relay)} {face : Face} {c : Circuit Gate}

theorem setInput (h : s.Hosts stations face c) {v : Value} (hv : v.IsBit) :
    (s.setInput v).2 = .ok () ∧ (s.setInput v).1.Hosts stations face c ∧
      ∃ l, (s.setInput v).1.links.get? inputLink = some l ∧ l.last = some v := by
  obtain ⟨a, b, hlinks⟩ := h.links
  have hcheck : s.root.input.interface.check v = .ok () := by
    rw [h.root]
    exact Interface.check_eq_ok_iff.mpr (Interface.accepts_bit h.input.1 hv)
  have hhas : s.links.has inputLink = true := by
    rw [LinkTable.has, hlinks]
    rfl
  rw [Simulation.setInput, hcheck]
  dsimp only
  rw [if_pos hhas]
  have hset : ∀ f : Link → Link, (s.links.modify inputLink f).entries =
      [(inputLink, f a), (outputLink, b)] := by
    intro f
    rw [LinkTable.modify, hlinks]
    rfl
  refine ⟨rfl, ⟨h.root, h.sound, h.line, h.input, h.output, h.fault, _, b, hset _⟩,
    { a with current := some v, last := some v }, ?_, rfl⟩
  rw [LinkTable.get?, hset]
  rfl

theorem write_output (h : s.Hosts stations face c) {w : Value} (hw : w.IsBit) (t : LinkTable) :
    face.output.write w t = (t.write outputLink w, .ok ()) := by
  have hs : face.output.Shaped .output := h.sound.shaped .output
  obtain ⟨m, hm⟩ := hs.eq_bit h.output.1
  obtain ⟨l, b, rfl⟩ := hw
  rw [hm, h.output.2]
  rfl

/-- A tick moves every value on by one link, and gives out what comes to the last one. -/
theorem tick (h : s.Hosts stations face c) {carried : Nat → Option Value} (hc : c.Holds carried)
    (hbits : ∀ k v, carried k = some v → v.IsBit) {v : Value} (hv : v.IsBit) {l : Link}
    (hl : s.links.get? inputLink = some l) (hlast : l.last = some v) :
    let next := Circuit.shifted (stations.map (·.2)) v carried
    ∃ c', s.tick.Hosts stations face c' ∧ c'.Holds next ∧
      s.tick.output = some ((next stations.length).getD .low) := by
  intro next
  obtain ⟨hshaped, hmatches, hcs⟩ := Gate.sound_circuit_iff.mp h.sound
  have hinner : c.innerInput.interface.isBit := by
    rw [← hmatches.input]
    exact h.input.1
  have hread : face.input.read s.links = .ok (some v) := by
    have hr := Port.read_bit (hshaped .input) h.input.1 h.input.2 hl fun w hw => by
      cases hlast.symm.trans hw
      exact hv
    rwa [hlast] at hr
  obtain ⟨htakes, hline, hholds⟩ := h.line.ticked hc hbits hinner hv hread
  have hnext : ∀ k w, next k = some w → w.IsBit := Circuit.isBit_shifted hv hbits
  have hw : ((next stations.length).getD .low).IsBit := Value.isBit_getD (hnext stations.length)
  have hgives : (c.ticked face s.links).innerOutput.read (c.ticked face s.links).links =
      .ok (some ((next stations.length).getD .low)) := by
    refine hline.read_input hholds hnext (Nat.le_refl _) ?_ ?_
    · rw [Circuit.Line.lineNode_length]
      rfl
    · have houter : c.innerOutput.interface.isBit := by
        rw [← hmatches.output]
        exact h.output.1
      exact houter
  generalize (next stations.length).getD .low = w at hw hgives ⊢
  have hpulled : (c.ticked face s.links).pulled face s.links =
      (s.links.write outputLink w, .ok ()) := by
    rw [Circuit.pulled, Interface.isNone_of_isBit h.output.1, hgives]
    exact h.write_output hw s.links
  have hupdate : s.root.update s.links =
      (.circuit face (c.ticked face s.links), s.links.write outputLink w) := by
    obtain ⟨-, links, hp⟩ | ⟨hno, -⟩ := Circuit.pushed_cases hcs.wired.innerInput face s.links
    · have hface : Gate.withFault face (.ok ()) = face := by
        rw [Gate.withFault, ← h.fault]
      rw [h.root, Gate.update_circuit_of_ok hp, hcs.advanced_eq hp, hpulled, hface]
    · exact absurd htakes hno
  obtain ⟨a, b, hlinks⟩ := h.links
  have htick : s.tick = ⟨.circuit face (c.ticked face s.links),
      (s.links.write outputLink w).updateAll, s.ticks + 1⟩ := by
    rw [Simulation.tick, hupdate]
  have hentries : s.tick.links.entries =
      [(inputLink, a.update), (outputLink, { b with current := some w, last := some w })] := by
    rw [htick, LinkTable.updateAll, LinkTable.write, LinkTable.modify, hlinks]
    rfl
  have hsound := h.sound.update s.links
  rw [← h.root, hupdate] at hsound
  refine ⟨_, ⟨?_, hsound, hline, h.input, h.output, h.fault, _, _, hentries⟩, hholds, ?_⟩
  · rw [htick]
  · rw [Simulation.output, LinkTable.get?, hentries]
    rfl

/-- Whatever bits are fed to a line, it takes them in, and gives each of them out through all of its
relays, as many ticks later as there are relays. -/
theorem fed (h : s.Hosts stations face c) (hc : c.Holds fun _ => none) {v : Nat → Value}
    (hv : ∀ t, (v t).IsBit) (t : Nat) :
    ∃ c', (s.fed v t).Hosts stations face c' ∧
      c'.Holds (Circuit.heldAfter (stations.map (·.2)) v t) := by
  induction t with
  | zero => exact ⟨c, h, hc⟩
  | succ t ih =>
    obtain ⟨c', hhosts, hholds⟩ := ih
    obtain ⟨-, hset, l, hl, hlast⟩ := hhosts.setInput (hv t)
    obtain ⟨c₁, hnext, hheld, -⟩ :=
      hset.tick hholds (Circuit.isBit_heldAfter hv t) (hv t) hl hlast
    exact ⟨c₁, hnext, hheld⟩

theorem fault_eq_none (h : s.Hosts stations face c) {path : List GateId} {g : Gate}
    (hg : s.root.at? path = some g) : g.face.fault = none := by
  rw [h.root] at hg
  cases path with
  | nil =>
    cases hg
    exact h.fault
  | cons id path =>
    obtain ⟨a, ha, hg⟩ := Option.bind_eq_some_iff.mp hg
    obtain ⟨r, hr⟩ := h.line.only ha
    obtain ⟨b, hb, hrelays⟩ := h.line.station _ hr
    rw [ha] at hb
    cases hb
    obtain ⟨@⟨face, name, hfault⟩, -⟩ := hrelays
    cases path with
    | nil =>
      cases hg
      exact hfault
    | cons id path => cases hg

theorem delays (h : s.Hosts stations face c) (hc : c.Holds fun _ => none) {v : Nat → Value}
    (hv : ∀ t, (v t).IsBit) (t : Nat) :
    ((s.fed v t).setInput (v t)).2 = .ok () ∧
    (∀ path g, (s.fed v t).root.at? path = some g → g.face.fault = none) ∧
    (stations.length ≤ t → (s.fed v (t + 1)).output = some
      ((stations.map (·.2)).foldl (fun w r => r.value w) (v (t - stations.length)))) := by
  obtain ⟨c', hhosts, hholds⟩ := h.fed hc hv t
  obtain ⟨hok, hset, l, hl, hlast⟩ := hhosts.setInput (hv t)
  refine ⟨hok, fun path g hg => hhosts.fault_eq_none hg, fun ht => ?_⟩
  obtain ⟨-, -, -, hout⟩ := hset.tick hholds (Circuit.isBit_heldAfter hv t) (hv t) hl hlast
  have hlength : stations.length = (stations.map (·.2)).length := by rw [List.length_map]
  have hheld := Circuit.heldAfter_eq (v := v) ht (Nat.le_of_eq hlength)
  rw [hlength, List.take_length, ← hlength] at hheld
  rw [Circuit.heldAfter] at hheld
  rw [hheld] at hout
  exact hout

end Hosts
end Simulation
end TickCircuit
