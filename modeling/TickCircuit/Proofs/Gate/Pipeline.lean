import Mathlib.Data.List.Nodup
import TickCircuit.Proofs.Gate.Each
import TickCircuit.Proofs.Gate.LinkType
import TickCircuit.Proofs.Gate.Relay
import TickCircuit.Proofs.Gate.RoundTrip
/-!
Pipelines, which are lines of relays that are described and inserted. Main statement: a pipeline
under a simulation is a delay line of as many ticks as it has gates (`pipeline_delays`).
-/
namespace TickCircuit

theorem Entries.get?_zipIdx {α : Type} (xs : List α) (n k : Nat) :
    Entries.get? (n + k) ((xs.zipIdx n).map Prod.swap) = xs[k]? := by
  induction xs generalizing n k with
  | nil => rfl
  | cons x xs ih =>
    rw [List.zipIdx_cons, List.map_cons]
    cases k with
    | zero => simp [Entries.get?]
    | succ k =>
      have hrest := ih (n + 1) k
      rw [Nat.add_right_comm, Nat.add_assoc] at hrest
      simp [Entries.get?, hrest]

namespace Circuit
variable {c c' : Circuit Gate}

/-- An insertion of gates that can all be made numbers them on, and leaves the others alone. -/
theorem insertGates_of_made {make : String → Except Fault Gate} {entries : List GateEntry}
    (hmake : ∀ e ∈ entries, ∃ g, make e.typeName = .ok g)
    (hc : ∀ id ∈ c.gateIds, id < c.nextGate) (offset : Position) (made : Insertion) :
    ∃ c' made', c.insertGates make offset made entries = (c', made', .ok ()) ∧
      (∀ id g, c.gate? id = some g → c'.gate? id = some g) ∧
      ∀ k e, entries[k]? = some e → ∃ g p, make e.typeName = .ok g ∧
        c'.gate? (c.nextGate + k) = some (g.moved p) := by
  induction entries generalizing c made with
  | nil => exact ⟨c, made, rfl, fun _ _ hg => hg, fun _ _ he => by cases he⟩
  | cons entry entries ih =>
    obtain ⟨g, hg⟩ := hmake entry List.mem_cons_self
    rw [insertGates, hg]
    dsimp only
    let a := g.moved ((entry.position.getD .zero).add offset)
    have hnew : c.nextGate ∉ Entries.keys c.gates := fun hid => Nat.lt_irrefl _ (hc _ hid)
    have hadded : ∀ id, (c.add a).gate? id = if id = c.nextGate then some a else c.gate? id := by
      intro id
      simp only [gate?, add, Entries.get?_put, eq_comm (a := id)]
    have hids := (gates_add_of_lt hc a).2
    obtain ⟨c', made', hrest, hkept, hmade⟩ :=
      ih (fun e he => hmake e (List.mem_cons_of_mem _ he)) hids
        { made with gates := made.gates.put entry.id c.nextGate }
    refine ⟨c', made', hrest, fun id b hb => hkept id b ?_, fun k e he => ?_⟩
    · rw [hadded, if_neg, hb]
      rintro rfl
      exact hnew (Entries.mem_keys_of_get? hb)
    · cases k with
      | zero =>
        cases he
        exact ⟨g, _, hg, hkept _ a (by rw [hadded]; exact if_pos rfl)⟩
      | succ k =>
        obtain ⟨b, p, hb, hgate⟩ := hmade k e he
        refine ⟨b, p, hb, ?_⟩
        rw [← hgate]
        exact congrArg c'.gate? (Nat.add_right_comm c.nextGate k 1)

/-- Links between whole ports, each to an input of its own that is still free, can all be made. -/
theorem Joined.exists_of_free {made : Insertion} (hc : c.Wired) (node : EndSpec → Node)
    {specs : List LinkSpec}
    (hends : ∀ s ∈ specs, linkEnd made s.source = .ok ⟨node s.source, []⟩ ∧
      linkEnd made s.sink = .ok ⟨node s.sink, []⟩ ∧ s.literal = none)
    (hfits : ∀ s ∈ specs, ∃ i j, c.interface? .output (node s.source) = some i ∧
      c.interface? .input (node s.sink) = some j ∧ j.admits i = true)
    (hfree : ∀ s ∈ specs, ∀ id path, c.end? .input id ≠ some ⟨node s.sink, path⟩)
    (hsinks : (specs.map (node ·.sink)).Nodup) :
    ∃ c', Joined made c specs (specs.map fun s => .seeded ⟨node s.source, []⟩ ⟨node s.sink, []⟩
      ((c.interface? .output (node s.source)).getD default) none) c' := by
  induction specs generalizing c with
  | nil => exact ⟨c, .nil c⟩
  | cons s specs ih =>
    obtain ⟨hsource, hsink, hliteral⟩ := hends s List.mem_cons_self
    obtain ⟨i, j, hi, hj, hadmits⟩ := hfits s List.mem_cons_self
    have hjoins : Joins c ⟨node s.source, []⟩ ⟨node s.sink, []⟩ none _ :=
      hc.joins_of_free hi hj hadmits (hfree s List.mem_cons_self) fun v hv => by cases hv
    obtain ⟨hhead, hsinks⟩ := List.nodup_cons.mp hsinks
    have hinterface := hc.interface?_withLink hjoins
    obtain ⟨c', hrest⟩ := ih (hc.withLink hjoins)
      (fun s hs => hends s (List.mem_cons_of_mem _ hs))
      (fun s hs => by
        simp only [hinterface]
        exact hfits s (List.mem_cons_of_mem _ hs))
      (fun s' hs id path he => by
        rw [hc.end?_withLink] at he
        split at he
        · have hnode := congrArg Endpoint.node (Option.some.inj he)
          exact hhead (List.mem_map.mpr ⟨s', hs, hnode.symm⟩)
        · exact hfree s' (List.mem_cons_of_mem _ hs) id path he)
      hsinks
    simp only [hinterface] at hrest
    rw [List.map_cons, hi]
    exact ⟨c', .cons hsource hsink (hliteral ▸ hjoins) hrest⟩

theorem Joined.gate {P : Gate → Prop} (hP : Gate.PortBlind P) {made : Insertion}
    {specs : List LinkSpec} {ls : List Link} (h : Joined made c specs ls c') {id : GateId} {g : Gate}
    (hg : c.gate? id = some g) (hold : P g) : ∃ g', c'.gate? id = some g' ∧ P g' := by
  induction h generalizing g with
  | nil c => exact ⟨g, hg, hold⟩
  | @cons c _ _ _ l _ _ _ _ _ _ _ ih =>
    obtain ⟨g₁, hg₁, hold₁⟩ := exists_gate_withLink hP hg hold l
    exact ih hg₁ hold₁

end Circuit

structure Stage where
  id : String
  typeName : String
  relay : Relay

namespace Stage

/-- The registry has the type of the stage, a bit on either side of a built-in transform. -/
def Known (registry : Registry) (s : Stage) : Prop :=
  ∃ template, registry.templates.get? s.typeName = some template ∧
    template.io.input.isBit ∧ template.io.output.isBit ∧
    template.body s.typeName = .ok (.transform s.relay.transformName) ∧
    registry.transform? s.relay.transformName = Builtin.find? s.relay.transformName

theorem Known.made {registry : Registry} {s : Stage} (h : s.Known registry) :
    ∃ g, Gate.ofTemplate registry s.typeName = .ok g ∧ ∀ p, (g.moved p).Relays s.relay := by
  obtain ⟨template, ht, hin, hout, hbody, htransform⟩ := h
  refine ⟨_, Gate.ofTemplate_transform registry s.typeName ht hbody, fun p => ?_⟩
  rw [htransform, Relay.find?_transformName]
  refine ⟨.mk rfl, fun d => ?_⟩
  cases d
  · exact (Port.interface_new .input template.io.input).symm ▸ hin
  · exact (Port.interface_new .output template.io.output).symm ▸ hout

/-- The links through a line of stages, from `start` on and back to the boundary. -/
def links (start : GateRef) : List Stage → List LinkSpec
  | [] => [⟨⟨start, []⟩, ⟨.outside, []⟩, none⟩]
  | s :: stages => ⟨⟨start, []⟩, ⟨.gate s.id, []⟩, none⟩ :: links (.gate s.id) stages

def stations (ids : Entries String GateId) (stages : List Stage) : List (GateId × Relay) :=
  stages.map fun s => ((ids.get? s.id).getD 0, s.relay)

end Stage

def GateRef.node (ids : Entries String GateId) : GateRef → Node
  | .outside => .boundary
  | .gate id => .gate ((ids.get? id).getD 0)

namespace Stage

theorem length_links (start : GateRef) (stages : List Stage) :
    (links start stages).length = stages.length + 1 := by
  induction stages generalizing start with
  | nil => rfl
  | cons s stages ih => simp [links, ih]

theorem sinks_links (ids : Entries String GateId) (start : GateRef) (stages : List Stage) :
    (links start stages).map (·.sink.gate.node ids) =
      (stations ids stages).map (.gate ·.1) ++ [.boundary] := by
  induction stages generalizing start with
  | nil => rfl
  | cons s stages ih =>
    rw [links, List.map_cons, ih]
    rfl

theorem of_mem_links {start : GateRef} {stages : List Stage} {s : LinkSpec}
    (h : s ∈ links start stages) :
    s.literal = none ∧ s.source.path = [] ∧ s.sink.path = [] ∧
      (s.source.gate = start ∨ ∃ t ∈ stages, s.source.gate = .gate t.id) ∧
      (s.sink.gate = .outside ∨ ∃ t ∈ stages, s.sink.gate = .gate t.id) := by
  induction stages generalizing start with
  | nil =>
    cases List.mem_singleton.mp h
    exact ⟨rfl, rfl, rfl, .inl rfl, .inl rfl⟩
  | cons t stages ih =>
    obtain rfl | h := List.mem_cons.mp h
    · exact ⟨rfl, rfl, rfl, .inl rfl, .inr ⟨t, List.mem_cons_self, rfl⟩⟩
    · obtain ⟨hliteral, hsource, hsink, hfrom, hto⟩ := ih h
      refine ⟨hliteral, hsource, hsink, .inr ?_, hto.imp_right ?_⟩
      · obtain hfrom | ⟨u, hu, hfrom⟩ := hfrom
        · exact ⟨t, List.mem_cons_self, hfrom⟩
        · exact ⟨u, List.mem_cons_of_mem _ hu, hfrom⟩
      · rintro ⟨u, hu, hto⟩
        exact ⟨u, List.mem_cons_of_mem _ hu, hto⟩

theorem node_links (ids : Entries String GateId) {start : GateRef} {stages : List Stage} {k : Nat}
    {s : LinkSpec} (h : (links start stages)[k]? = some s) :
    s.source.gate.node ids = (if k = 0 then start.node ids
      else Circuit.lineNode (stations ids stages) .output k) ∧
    s.sink.gate.node ids = Circuit.lineNode (stations ids stages) .input k := by
  induction stages generalizing start k with
  | nil =>
    cases k with
    | zero =>
      cases h
      exact ⟨rfl, rfl⟩
    | succ k => cases h
  | cons t stages ih =>
    cases k with
    | zero =>
      cases h
      exact ⟨rfl, rfl⟩
    | succ k =>
      obtain ⟨hsource, hsink⟩ := ih (k := k) h
      refine ⟨?_, hsink⟩
      rw [hsource]
      cases k <;> rfl

end Stage

theorem Interface.admits_of_bit_or_any {i j : Interface} (hi : i.isBit ∨ i.isAny)
    (hj : j.isBit ∨ j.isAny) : j.admits i = true := by
  cases i <;> simp [isBit, isAny] at hi <;> cases j <;> simp [isBit, isAny] at hj <;> simp [admits]

namespace Circuit
variable {c : Circuit Gate}

/-- The gates of the stages are there, each with a number of its own, and nothing is joined yet. -/
structure Placed (stages : List Stage) (made : Insertion) (c : Circuit Gate) : Prop where
  sound : c.Sound
  stage : ∀ s ∈ stages, ∃ id g, made.gates.get? s.id = some id ∧ c.gate? id = some g ∧
    g.Relays s.relay
  only : ∀ id ∈ c.gateIds, ∃ s ∈ stages, made.gates.get? s.id = some id
  injective : ∀ {name name' id}, made.gates.get? name = some id →
    made.gates.get? name' = some id → name = name'
  links : c.links = .empty
  boundary : ∀ d, c.interface? d .boundary = some default

namespace Placed
variable {stages : List Stage} {made : Insertion}

theorem nodup (h : c.Placed stages made) (hs : (stages.map (·.id)).Nodup) :
    ((Stage.stations made.gates stages).map (·.1)).Nodup := by
  rw [Stage.stations, List.map_map]
  refine (List.nodup_map_iff_inj_on hs.of_map).mpr fun s hs' t ht hst => ?_
  obtain ⟨id, -, hid, -⟩ := h.stage s hs'
  obtain ⟨id', -, hid', -⟩ := h.stage t ht
  have hsame : id = id' := by simpa [hid, hid'] using hst
  exact List.inj_on_of_nodup_map hs hs' ht (h.injective hid (hsame ▸ hid'))

theorem ends (h : c.Placed stages made) {r : GateRef}
    (hr : r = .outside ∨ ∃ s ∈ stages, r = .gate s.id) :
    linkEnd made ⟨r, []⟩ = .ok ⟨r.node made.gates, []⟩ ∧
      ∀ d, ∃ i, c.interface? d (r.node made.gates) = some i ∧ (i.isBit ∨ i.isAny) := by
  obtain rfl | ⟨s, hs, rfl⟩ := hr
  · exact ⟨rfl, fun d => ⟨default, h.boundary d, .inr rfl⟩⟩
  · obtain ⟨id, g, hid, hgate, hrelays⟩ := h.stage s hs
    refine ⟨by simp [linkEnd, GateRef.node, hid], fun d => ?_⟩
    refine ⟨(g.port d).interface, ?_, .inl (hrelays.bits d)⟩
    simp [GateRef.node, hid, interface?, port?, hgate]

theorem joined (h : c.Placed stages made) (hs : (stages.map (·.id)).Nodup) :
    ∃ c', Joined made c (Stage.links .outside stages)
      ((Stage.links .outside stages).map fun s =>
        .seeded ⟨s.source.gate.node made.gates, []⟩ ⟨s.sink.gate.node made.gates, []⟩
          ((c.interface? .output (s.source.gate.node made.gates)).getD default) none) c' := by
  refine Joined.exists_of_free h.sound.wired (fun e => e.gate.node made.gates)
    (fun s hs => ?_) (fun s hs => ?_) (fun s _ id path he => ?_) ?_
  · obtain ⟨hliteral, hsource, hsink, hfrom, hto⟩ := Stage.of_mem_links hs
    obtain ⟨⟨g, _⟩, ⟨g', _⟩, _⟩ := s
    cases hsource
    cases hsink
    exact ⟨(h.ends hfrom).1, (h.ends hto).1, hliteral⟩
  · obtain ⟨-, -, -, hfrom, hto⟩ := Stage.of_mem_links hs
    obtain ⟨i, hi, hopen⟩ := (h.ends hfrom).2 .output
    obtain ⟨j, hj, hopen'⟩ := (h.ends hto).2 .input
    exact ⟨i, j, hi, hj, Interface.admits_of_bit_or_any hopen hopen'⟩
  · rw [end?, h.links] at he
    cases he
  · rw [Stage.sinks_links, List.nodup_append]
    refine ⟨?_, List.nodup_singleton _, fun n hn m hm => ?_⟩
    · have hgates := (h.nodup hs).map (f := Node.gate) fun _ _ he => Node.gate.inj he
      rwa [List.map_map] at hgates
    · obtain ⟨x, -, rfl⟩ := List.mem_map.mp hn
      cases List.mem_singleton.mp hm
      simp

theorem line (h : c.Placed stages made) (hs : (stages.map (·.id)).Nodup) :
    ∃ c' ls, Joined made c (Stage.links .outside stages) ls c' ∧
      Line (Stage.stations made.gates stages) c' ∧ c'.Holds fun _ => none := by
  obtain ⟨c', hj⟩ := h.joined hs
  have hlink : ∀ k, c'.links.get? k = ((Stage.links .outside stages)[k]?).map fun s =>
      .seeded ⟨s.source.gate.node made.gates, []⟩ ⟨s.sink.gate.node made.gates, []⟩
        ((c.interface? .output (s.source.gate.node made.gates)).getD default) none := by
    intro k
    rw [LinkTable.get?, (hj.links h.sound.wired).1, h.links, ← List.getElem?_map,
      ← Entries.get?_zipIdx _ 0 k, Nat.zero_add]
    rfl
  refine ⟨c', _, hj, ⟨hj.sound h.sound, h.nodup hs, fun x hx => ?_, fun {id g} hgate => ?_,
    fun d k => ?_⟩, fun k l hl => ?_⟩
  · obtain ⟨s, hs', rfl⟩ := List.mem_map.mp hx
    obtain ⟨id, g, hid, hgate, hrelays⟩ := h.stage s hs'
    obtain ⟨g', hg', hworks⟩ := hj.gate (Gate.portBlind_works s.relay) hgate hrelays.works
    refine ⟨g', by simpa [hid] using hg', relays_of_same_types hgate hrelays hg' hworks fun d => ?_⟩
    exact hj.interface? h.sound.wired d (.gate id)
  · have hid : id ∈ c.gateIds := hj.gates.1 ▸ Entries.mem_keys_of_get? hgate
    obtain ⟨s, hs', hid⟩ := h.only id hid
    exact ⟨s.relay, List.mem_map.mpr ⟨s, hs', by rw [hid]; rfl⟩⟩
  · have hlength : (Stage.stations made.gates stages).length = stages.length := by
      simp [Stage.stations]
    rw [end?, hlink, hlength]
    split
    next hk =>
      have hlt : k < (Stage.links .outside stages).length := by
        rw [Stage.length_links]
        exact Nat.lt_succ_of_le hk
      obtain ⟨s, hs'⟩ : ∃ s, (Stage.links .outside stages)[k]? = some s :=
        ⟨_, List.getElem?_eq_getElem hlt⟩
      obtain ⟨hsource, hsink⟩ := Stage.node_links made.gates hs'
      rw [hs']
      cases d with
      | output =>
        refine congrArg (fun n => some (Endpoint.mk n [])) (hsource.trans ?_)
        cases k <;> rfl
      | input => exact congrArg (fun n => some (Endpoint.mk n [])) hsink
    next hk =>
      have hge : (Stage.links .outside stages).length ≤ k := by
        rw [Stage.length_links]
        exact Nat.lt_of_not_le hk
      rw [List.getElem?_eq_none hge]
      rfl
  · rw [hlink] at hl
    obtain ⟨s, -, rfl⟩ := Option.map_eq_some_iff.mp hl
    exact ⟨rfl, rfl⟩

end Placed
end Circuit

theorem Interface.isBit_of_sameShape {a b : Interface} (h : a.sameShape b = true)
    (hb : b.isBit) : a.isBit := by
  cases a <;> cases b <;> simp_all [isBit, sameShape]

theorem Port.checkRetype_of_root {p : Port} (h : ∀ k path, p.linksAt (k :: path) = [])
    (target : Interface) : checkRetype target p = .ok () := by
  induction p generalizing target with
  | mk d i ls subs ih =>
    refine checkRetype_eq_ok.mpr fun k q hq => ?_
    have hfree : ∀ path, q.linksAt path = [] := by
      intro path
      have hpath := h k path
      rwa [linksAt_cons, hq] at hpath
    cases target.child? k with
    | none => exact isLinked_eq_false.mpr hfree
    | some child => exact ih q (List.mem_of_getElem? hq) (fun k path => hfree (k :: path)) child

namespace Circuit.Line
variable {stations : List (GateId × Relay)} {c : Circuit Gate}

theorem linksAt_boundary (h : Line stations c) {d : Direction} {p : Port}
    (hp : c.port? d .boundary = some p) (k : Nat) (path : Path) : p.linksAt (k :: path) = [] := by
  refine List.eq_nil_iff_forall_not_mem.mpr fun id hid => ?_
  have hend := (h.sound.wired.mem_linksAt_iff hp).mp hid
  rw [h.ends] at hend
  split at hend
  · cases congrArg Endpoint.path (Option.some.inj hend)
  · cases hend

theorem links_boundary (h : Line stations c) :
    c.innerInput.links = [0] ∧ c.innerOutput.links = [stations.length] := by
  constructor
  · refine h.sound.wired.linksAt_eq_singleton (d := .output) (n := .boundary) rfl [] fun j => ?_
    rw [h.ends]
    cases j with
    | zero => simp [lineNode]
    | succ j =>
      split
      next hj => simp [lineNode, List.getElem?_eq_getElem (show j < stations.length from hj)]
      next => simp
  · refine h.linksAt_input (Nat.le_refl _) ?_
    rw [lineNode_length]
    rfl

theorem linkType_boundary (h : Line stations c) (hc : c.Unresolved) {k : Nat}
    (hk : k ≤ stations.length) {d : Direction} (here : lineNode stations d k = .boundary)
    {s : GateId × Relay} (hs : s ∈ stations)
    (there : lineNode stations d.opposite k = .gate s.1) :
    ∃ t, c.linkType k = .ok t ∧ t.isBit := by
  have hends : ∀ d, c.end? d k = some ⟨lineNode stations d k, []⟩ := fun d => by
    rw [h.ends, if_pos hk]
  obtain ⟨l, hl, hend⟩ := Option.map_eq_some_iff.mp (hends d)
  have hfar := hends d.opposite
  rw [end?, hl, Option.map_some, Option.some.injEq] at hfar
  rw [here] at hend
  rw [there] at hfar
  obtain ⟨t, u, ht, hu, hshape⟩ := hc.linkType_far hl hend
  obtain ⟨g, hg, hrelays⟩ := h.station s hs
  rw [farType?, hfar, if_neg (by simp), typeAt?, interface?, port?, hg] at hu
  cases hu
  exact ⟨t, ht, Interface.isBit_of_sameShape hshape (hrelays.bits d.opposite)⟩

theorem boundaryTypes (h : Line stations c) (hc : c.Unresolved) (hn : stations ≠ []) :
    ∃ i o, c.boundaryTypes = .ok (i, o) ∧ i.isBit ∧ o.isBit := by
  obtain ⟨hfirst, hlast⟩ := h.links_boundary
  obtain ⟨i, hi, hibit⟩ : ∃ i, c.linkType 0 = .ok i ∧ i.isBit := by
    obtain ⟨s, rest, rfl⟩ := List.exists_cons_of_ne_nil hn
    exact h.linkType_boundary hc (Nat.zero_le _) (d := .output) rfl List.mem_cons_self rfl
  obtain ⟨o, ho, hobit⟩ : ∃ o, c.linkType stations.length = .ok o ∧ o.isBit := by
    have hs : stations[stations.length - 1]? = some (stations.getLast hn) := by
      rw [← List.getLast?_eq_getElem?, List.getLast?_eq_getLast_of_ne_nil hn]
    have hlength : stations.length - 1 + 1 = stations.length :=
      Nat.sub_add_cancel (List.length_pos_of_ne_nil hn)
    have hsource := (lineNode_of_getElem? hs).2
    rw [hlength] at hsource
    exact h.linkType_boundary hc (Nat.le_refl _) (d := .input) lineNode_length
      (List.getLast_mem hn) hsource
  refine ⟨i, o, ?_, hibit, hobit⟩
  have hopen : ∀ {d p}, c.port? d .boundary = some p → ¬ p.interface.isFinal := fun hp =>
    Interface.not_isFinal_of_isAny (hc.boundary hp)
  rw [Circuit.boundaryTypes, Port.inferred_of_link (hopen (d := .output) rfl) hfirst, hi,
    Port.inferred_of_link (hopen (d := .input) rfl) hlast, ho]
  rfl

theorem hosted (h : Line stations c) (hc : c.Unresolved) (hn : stations ≠ []) (name : String) :
    ∃ g s face c', (Gate.ofCircuit name c).resolve = (g, .ok ()) ∧ Simulation.new g = .ok s ∧
      s.Hosts stations face c' ∧ c'.links = c.links := by
  obtain ⟨i, o, htypes, hi, ho⟩ := h.boundaryTypes hc hn
  have hinner := h.linksAt_boundary (d := .output) rfl
  have houter := h.linksAt_boundary (d := .input) rfl
  obtain ⟨g, hwith⟩ : ∃ g, (Gate.ofCircuit name c).setBoundary i o = (g, .ok ()) :=
    ⟨_, Gate.setBoundary_eq_ok.mpr ⟨rfl, Port.checkRetype_of_root hinner i, rfl,
      Port.checkRetype_of_root houter o, rfl⟩⟩
  obtain ⟨hshaped, -⟩ := Gate.portsShaped_new (Gate.ofCircuit name c) fun d =>
    ⟨_, Gate.port_ofCircuit name c d⟩
  obtain ⟨hsound, -⟩ := Gate.sound_setBoundary hshaped h.sound hwith
  have hresolved := Gate.resolve_iff.mpr ⟨i, o, htypes, hwith⟩
  obtain ⟨-, -, -, -, rfl⟩ := Gate.setBoundary_eq_ok.mp hwith
  obtain ⟨-, -, hcs⟩ := Gate.sound_circuit_iff.mp hsound
  cases i with
  | bit m =>
    cases o with
    | bit m' =>
      refine ⟨_, _, _, _, hresolved, rfl, ⟨rfl, hsound.driven rfl, ?_,
        ⟨rfl, rfl⟩, ⟨rfl, rfl⟩, rfl, _, _, rfl⟩, rfl⟩
      exact ⟨hcs, h.nodup, h.station, h.only, h.ends⟩
    | _ => cases ho
  | _ => cases hi

end Circuit.Line

/-- What is described is a pipeline: the gates of the stages, listed in any order, and links from
the boundary through all of them and back to it. -/
structure Description.Pipes (registry : Registry) (stages : List Stage) (d : Description) :
    Prop where
  nonempty : stages ≠ []
  known : ∀ s ∈ stages, s.Known registry
  nodup : (stages.map (·.id)).Nodup
  gates : (d.gates.map fun e => (e.id, e.typeName)).Perm (stages.map fun s => (s.id, s.typeName))
  links : d.specs = .ok (Stage.links .outside stages)

namespace Description.Pipes
variable {registry : Registry} {stages : List Stage} {d : Description}

theorem placed (h : d.Pipes registry stages) (offset : Position) :
    let c₀ := Circuit.empty registry
    ∃ c made, c₀.insertGates (Gate.ofTemplate registry) offset
        ⟨[], [], c₀.innerInput, c₀.innerOutput⟩ d.gates = (c, made, .ok ()) ∧
      c.Placed stages made := by
  intro c₀
  have hentry : ∀ e ∈ d.gates, ∃ s ∈ stages, e.id = s.id ∧ e.typeName = s.typeName := by
    intro e he
    have hmem := h.gates.mem_iff.mp (List.mem_map_of_mem he)
    obtain ⟨s, hs, heq⟩ := List.mem_map.mp hmem
    obtain ⟨hid, htype⟩ := Prod.mk.inj heq
    exact ⟨s, hs, hid.symm, htype.symm⟩
  have hnames : (d.gates.map (·.id)).Perm (stages.map (·.id)) := by
    have hfst := h.gates.map Prod.fst
    rwa [List.map_map, List.map_map] at hfst
  have hmake : ∀ e ∈ d.gates, ∃ g, Gate.ofTemplate registry e.typeName = .ok g := by
    intro e he
    obtain ⟨s, hs, -, htype⟩ := hentry e he
    obtain ⟨g, hg, -⟩ := (h.known s hs).made
    exact ⟨g, htype ▸ hg⟩
  obtain ⟨c, made, hinsert, -, hmade⟩ := Circuit.insertGates_of_made hmake
    (c := c₀) (fun _ hid => by cases hid) offset
    ⟨[], [], c₀.innerInput, c₀.innerOutput⟩
  obtain ⟨htags, hids⟩ :=
    Circuit.tags_insertGates Gate.typeName_ofTemplate (fun _ hid => by cases hid) hinsert
  have hnumbered : made.gates = numbered 0 (d.gates.map (·.id)) := hids
  have hnumber : ∀ {name id}, made.gates.get? name = some id → ∃ e, d.gates[id]? = some e ∧
      e.id = name := by
    intro name id hid
    rw [hnumbered] at hid
    obtain ⟨k, hk, rfl⟩ := of_get?_numbered hid
    rw [Nat.zero_add]
    rw [List.getElem?_map] at hk
    exact Option.map_eq_some_iff.mp hk
  have hrecord : ∀ s ∈ stages, ∃ id e, made.gates.get? s.id = some id ∧ d.gates[id]? = some e ∧
      e.id = s.id := by
    intro s hs
    cases hid : made.gates.get? s.id with
    | none =>
      rw [hnumbered] at hid
      have hmem := hnames.mem_iff.mpr (List.mem_map_of_mem (f := fun s : Stage => s.id) hs)
      exact absurd hmem (get?_numbered_eq_none.mp hid)
    | some id =>
      obtain ⟨e, he, hname⟩ := hnumber hid
      exact ⟨id, e, rfl, he, hname⟩
  obtain ⟨hlinks, hports⟩ := Circuit.insertGates_keeps (Gate.ofTemplate registry) offset c₀
    ⟨[], [], c₀.innerInput, c₀.innerOutput⟩ d.gates
  have hsound := (Circuit.sound_empty registry).insertGates (Gate.makesSound_ofTemplate registry)
    offset d.gates
  rw [hinsert] at hlinks hports hsound
  refine ⟨c, made, hinsert, hsound, fun s hs => ?_, fun id hid => ?_,
    fun {name name' id} hn hn' => ?_, hlinks, fun d => ?_⟩
  · obtain ⟨id, e, hid, he, hname⟩ := hrecord s hs
    obtain ⟨g, p, hg, hgate⟩ := hmade id e he
    -- the entry under that number is for this stage
    obtain ⟨t, ht, htid, htype⟩ := hentry e (List.mem_of_getElem? he)
    cases List.inj_on_of_nodup_map h.nodup ht hs (htid.symm.trans hname)
    obtain ⟨g', hg', hrelays⟩ := (h.known s hs).made
    rw [htype, hg'] at hg
    cases hg
    exact ⟨id, _, hid, Nat.zero_add id ▸ hgate, hrelays p⟩
  · rw [← Circuit.keys_tags, htags] at hid
    obtain ⟨e, he⟩ : ∃ e, d.gates[id]? = some e := by
      obtain ⟨x, hx, rfl⟩ := List.mem_map.mp hid
      obtain ⟨⟨e, k⟩, he, rfl⟩ := List.mem_map.mp hx
      exact ⟨e, List.mem_zipIdx_iff_getElem?.mp he⟩
    obtain ⟨s, hs, hname, -⟩ := hentry e (List.mem_of_getElem? he)
    obtain ⟨k, e', hk, he', hname'⟩ := hrecord s hs
    have hlt : id < (d.gates.map (·.id)).length := by
      rw [List.length_map]
      exact (List.getElem?_eq_some_iff.mp he).1
    have hsame : (d.gates.map (·.id))[id]? = (d.gates.map (·.id))[k]? := by
      simp [he, he', hname, hname']
    exact ⟨s, hs, (List.getElem?_inj hlt (hnames.nodup_iff.mpr h.nodup)).mp hsame ▸ hk⟩
  · obtain ⟨e, he, rfl⟩ := hnumber hn
    obtain ⟨e', he', rfl⟩ := hnumber hn'
    cases he.symm.trans he'
    rfl
  · rw [Circuit.interface?, hports]
    cases d <;> rfl

theorem insert (h : d.Pipes registry stages) (offset : Position) :
    ∃ c made stations, (Circuit.empty registry).insert (Gate.ofTemplate registry) d offset =
        (c, .ok made) ∧
      stations.map Prod.snd = stages.map (·.relay) ∧ Circuit.Line stations c ∧
      c.Holds fun _ => none := by
  obtain ⟨c₀, made, hgates, hplaced⟩ := h.placed offset
  obtain ⟨c, ls, hjoined, hline, hholds⟩ := hplaced.line h.nodup
  obtain ⟨made', hinsert⟩ := (Circuit.insert_eq_ok (Gate.makesSound_ofTemplate registry)
    (Circuit.sound_empty registry)).mpr ⟨c₀, made, _, _, hgates, h.links, hjoined⟩
  exact ⟨c, made', _, hinsert, by simp [Stage.stations], hline, hholds⟩

end Description.Pipes

/-- A pipeline that is inserted into a new circuit and put under a simulation delays what it is fed
by one tick for each gate. Whatever bits come in, one before each tick, they are taken in, no gate
has a fault, and what comes out on a tick is the bit from that many ticks ago, as it is after all
of the gates. -/
theorem pipeline_delays {registry : Registry} {stages : List Stage} {d : Description}
    (h : d.Pipes registry stages) (name : String) (offset : Position) :
    ∃ g ids s, (Gate.ofCircuit name (.empty registry)).insert d offset = (g, .ok ids) ∧
      Simulation.new g = .ok s ∧ ∀ v : Nat → Value, (∀ t, (v t).IsBit) → ∀ t,
        ((s.fed v t).setInput (v t)).2 = .ok () ∧
        (∀ path a, (s.fed v t).root.at? path = some a → a.face.fault = none) ∧
        (stages.length ≤ t → (s.fed v (t + 1)).output =
          some (stages.foldl (fun w stage => stage.relay.value w) (v (t - stages.length)))) := by
  obtain ⟨c, made, stations, hinsert, hrelays, hline, hholds⟩ := h.insert offset
  have hunresolved := Circuit.unresolved_insert (Gate.makesSound_ofTemplate registry) hinsert
  have hlength : stations.length = stages.length := by
    have hl := congrArg List.length hrelays
    rwa [List.length_map, List.length_map] at hl
  have hn : stations ≠ [] := by
    intro hnil
    rw [hnil, List.length_nil] at hlength
    exact h.nonempty (List.length_eq_zero_iff.mp hlength.symm)
  obtain ⟨g, s, face, c', hg, hs, hhosts, hlinks⟩ := hline.hosted hunresolved hn name
  obtain ⟨ids, hids⟩ : ∃ ids,
      (Gate.ofCircuit name (.empty registry)).insert d offset = (g, .ok ids) :=
    Gate.insert_eq_ok.mpr ⟨c, made, hinsert, hg⟩
  refine ⟨g, ids, s, hids, hs, fun v hv t => ?_⟩
  have hholds' : c'.Holds fun _ => none := fun k l hl => hholds k l (hlinks ▸ hl)
  have hdelays := hhosts.delays hholds' hv t
  rwa [hrelays, hlength, List.foldl_map] at hdelays

def Registry.relays : Registry :=
  (Registry.empty.insert "hold" (.ofTransform ⟨.bit none, .bit none⟩ "buffer")).insert "flip"
    (.ofTransform ⟨.bit none, .bit none⟩ "not")

/-- An inverter before a buffer, listed the other way round. -/
def Description.pair : Description :=
  ⟨[⟨"b", "hold", none⟩, ⟨"a", "flip", none⟩], ["outside=>a", "a=>b", "b=>outside"]⟩

theorem pipes_pair :
    Description.pair.Pipes .relays [⟨"a", "flip", .inverter⟩, ⟨"b", "hold", .buffer⟩] where
  nonempty := nofun
  known s hs := by
    obtain rfl | hs := List.mem_cons.mp hs
    · exact ⟨_, rfl, rfl, rfl, rfl, rfl⟩
    · cases List.mem_singleton.mp hs
      exact ⟨_, rfl, rfl, rfl, rfl, rfl⟩
  nodup := by decide
  gates := .swap ..
  links := rfl

/-- What goes into that pipeline high comes out low, from the third tick on. -/
theorem pipeline_delays_pair : ∃ g ids s,
    (Gate.ofCircuit "scratch" (.empty .relays)).insert .pair .zero = (g, .ok ids) ∧
      Simulation.new g = .ok s ∧ ∀ t, 2 ≤ t → (s.fed (fun _ => .high) (t + 1)).output = some .low := by
  obtain ⟨g, ids, s, hinsert, hnew, hdelays⟩ := pipeline_delays pipes_pair "scratch" .zero
  refine ⟨g, ids, s, hinsert, hnew, fun t ht => ?_⟩
  obtain ⟨-, -, hout⟩ := hdelays (fun _ => .high) (fun _ => ⟨none, true, rfl⟩) t
  exact hout ht

end TickCircuit
