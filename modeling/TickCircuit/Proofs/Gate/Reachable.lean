import TickCircuit.Proofs.Gate.Template
import TickCircuit.Proofs.Port.Occupancy
import TickCircuit.Simulation
/-!
What can be done to gates, and the gates that come of it. Main statement: they are all sound
(`Reachable.sound`).
-/
namespace TickCircuit

inductive Handle where
  | gate (id : GateId)
  | link (id : LinkId)
deriving DecidableEq

inductive Edit where
  | create (typeName : String)
  | add (g : Gate)
  | connect (start end_ : LinkEnd) (literal : Option Value)
  | deleteLink (id : LinkId)
  | removeLink (id : LinkId)
  | removeGate (id : GateId)
  | load (registry : Registry)

/-- The circuit after an edit, and the ids that come back from it. -/
def Edit.run (c : Circuit Gate) : Edit → Circuit Gate × List Handle
  | .create typeName =>
    match c.create typeName with
    | (c, .error _) => (c, [])
    | (c, .ok id) => (c, [.gate id])
  | .add g => (c.add g, [.gate c.nextGate])
  | .connect start end_ literal =>
    match c.connect start end_ literal with
    | (c, .error _) => (c, [])
    | (c, .ok id) => (c, [.link id])
  | .deleteLink id => (c.deleteLink id, [])
  | .removeLink id => ((c.removeLink id).1, [])
  | .removeGate id => ((c.removeGate id).1, [])
  | .load registry => (c.extendRegistry registry, [])

theorem Edit.run_connect (c : Circuit Gate) (start end_ : LinkEnd) (literal : Option Value) :
    ((Edit.connect start end_ literal).run c).1 = (c.connect start end_ literal).1 := by
  rw [Edit.run]
  rcases c.connect start end_ literal with ⟨c', e | id⟩ <;> rfl

inductive Operation where
  | edit (e : Edit)
  | insert (d : Description) (offset : Position)
  | resolve
  | update (outer : LinkTable)
  | click
  | rename (name : String)
  | move (p : Position)

def Operation.run (g : Gate) : Operation → Gate × List Handle
  | .edit e =>
    match g with
    | .circuit face c => (.circuit face (e.run c).1, (e.run c).2)
    | .function .. => (g, [])
  | .insert d offset =>
    match g.insert d offset with
    | (g, .error _) => (g, [])
    | (g, .ok ids) => (g, ids.map fun (_, id) => .gate id)
  | .resolve => (g.resolve.1, [])
  | .update outer => ((g.update outer).1, [])
  | .click => (g.click.1, [])
  | .rename name => (g.renamed name, [])
  | .move p => (g.moved p, [])

namespace Gate

/-- Does something to the gate at a path; nothing happens where no gate is. -/
def perform (path : List GateId) (op : Operation) (g : Gate) : Gate × List Handle :=
  (g.editAt op.run path).getD (g, [])

/-- The gates that can come up: new ones and whatever is done to them or is inside of them. -/
inductive Reachable : Gate → Prop where
  | transform (typeName : String) (io : Io) (name : String) (t : Option Transform) :
    Reachable (.ofTransform typeName io name t)
  | circuit (typeName : String) (registry : Registry) :
    Reachable (.ofCircuit typeName (.empty registry))
  | template {registry : Registry} {typeName : String} {g : Gate}
    (h : ofTemplate registry typeName = .ok g) : Reachable g
  | step {g : Gate} (h : Reachable g) (path : List GateId) (op : Operation)
    (adds : ∀ a, op = .edit (.add a) → Reachable a)
    (free : ∀ a, op = .edit (.add a) → a.Unlinked) : Reachable (g.perform path op).1
  | inside {face : Face} {c : Circuit Gate} (h : Reachable (.circuit face c)) {id : GateId}
    {g : Gate} (hg : c.gate? id = some g) : Reachable g
  | driven {g : Gate} (h : Reachable g) {s : Simulation} (hs : Simulation.new g = .ok s) :
    Reachable s.root

end Gate

theorem Edit.sound {c : Circuit Gate} (hc : c.Sound) {e : Edit}
    (hadd : ∀ a, e = .add a → a.Sound ∧ a.Unlinked) :
    (e.run c).1.Sound ∧ ∀ face : Face, face.Matches c → face.Matches (e.run c).1 := by
  cases e with
  | create typeName =>
    rw [run, Circuit.create]
    cases hg : Gate.ofTemplate c.registry typeName with
    | error e => exact ⟨hc, fun _ h => h⟩
    | ok g =>
      obtain ⟨hs, hfree⟩ := Gate.makesSound_ofTemplate c.registry typeName g hg
      exact ⟨hc.add hs hfree, fun _ h => ⟨h.input, h.output⟩⟩
  | add g =>
    obtain ⟨hs, hfree⟩ := hadd g rfl
    exact ⟨hc.add hs hfree, fun _ h => ⟨h.input, h.output⟩⟩
  | connect start end_ literal =>
    rw [run_connect]
    exact ⟨hc.connect start end_ literal,
      fun _ => (hc.wired.refaced_connect start end_ literal).matches⟩
  | deleteLink id | removeLink id =>
    exact ⟨hc.deleteLink id, fun _ => (hc.wired.refaced_deleteLink id).matches⟩
  | removeGate id => exact ⟨hc.removeGate id, fun _ => (hc.wired.refaced_removeGate id).matches⟩
  | load registry =>
    refine ⟨⟨?_, hc.children⟩, fun _ h => ⟨h.input, h.output⟩⟩
    exact hc.wired.of_same_ports rfl rfl rfl fun d n => by cases d <;> cases n <;> rfl

namespace Gate

theorem SamePlaces.of_port_eq {g h : Gate} (hp : ∀ d, h.port d = g.port d) : g.SamePlaces h :=
  fun d path => congrArg (Port.linksAt · path) (hp d)

theorem port_click (g : Gate) (d : Direction) : g.click.1.port d = g.port d := by
  cases g with
  | function face name t => cases t <;> cases d <;> rfl
  | circuit face c => rfl

theorem port_renamed (g : Gate) (name : String) (d : Direction) :
    (g.renamed name).port d = g.port d := by
  cases g <;> cases d <;> rfl

theorem Sound.click {g : Gate} (h : g.Sound) : g.click.1.Sound := by
  have hs := h.shaped.of_port_eq g.port_click
  cases g with
  | function face name t =>
    cases t with
    | none => exact h
    | some t => exact .function hs
  | circuit face c => exact h

theorem Sound.renamed {g : Gate} (h : g.Sound) (name : String) : (g.renamed name).Sound :=
  h.of_same_ports (g.port_renamed name)

theorem Sound.of_circuit {face : Face} {c c' : Circuit Gate} (h : (Gate.circuit face c).Sound)
    (hc : c'.Sound) (hm : face.Matches c → face.Matches c') : (Gate.circuit face c').Sound := by
  obtain ⟨hs, hm', -⟩ := sound_circuit_iff.mp h
  refine sound_circuit_iff.mpr ⟨hs.of_port_eq fun d => ?_, hm hm', hc⟩
  cases d <;> rfl

end Gate

theorem Operation.sound {g : Gate} (h : g.Sound) {op : Operation}
    (hadd : ∀ a, op = .edit (.add a) → a.Sound ∧ a.Unlinked) :
    (op.run g).1.Sound ∧ g.SamePlaces (op.run g).1 := by
  cases op with
  | edit e =>
    cases g with
    | function face name t => exact ⟨h, .refl _⟩
    | circuit face c =>
      obtain ⟨-, -, hc⟩ := Gate.sound_circuit_iff.mp h
      obtain ⟨hs, hm⟩ := Edit.sound hc (e := e) fun a ha => hadd a (by rw [ha])
      refine ⟨h.of_circuit hs (hm face), fun d path => ?_⟩
      cases d <;> rfl
  | insert d offset =>
    have hi := h.insert d offset
    rw [run]
    match hk : g.insert d offset with
    | (g', .error e) | (g', .ok ids) =>
      rw [hk] at hi
      exact hi
  | resolve =>
    rw [run]
    rcases hr : g.resolve with ⟨g', e | ⟨⟩⟩
    · rw [Gate.resolve_refused hr]
      exact ⟨h, .refl _⟩
    · cases g with
      | function face name t => cases hr
      | circuit face c =>
        obtain ⟨hs, -, hc⟩ := Gate.sound_circuit_iff.mp h
        obtain ⟨i, o, hb⟩ := Gate.resolve_eq_ok hr
        exact Gate.sound_setBoundary hs hc hb
  | update outer => exact ⟨h.update outer, .of_port_eq (g.port_update outer)⟩
  | click => exact ⟨h.click, .of_port_eq g.port_click⟩
  | rename name => exact ⟨h.renamed name, .of_port_eq (g.port_renamed name)⟩
  | move p => exact ⟨h.moved p, .of_port_eq (g.port_moved p)⟩

namespace Gate

theorem Sound.editAt {α : Type} {f : Gate → Gate × α}
    (hf : ∀ g, g.Sound → (f g).1.Sound ∧ g.SamePlaces (f g).1) {path : List GateId} {g g' : Gate}
    {a : α} (h : g.Sound) (he : g.editAt f path = some (g', a)) :
    g'.Sound ∧ g.SamePlaces g' := by
  induction path generalizing g g' with
  | nil =>
    have hg := hf g h
    rwa [Option.some.inj he] at hg
  | cons id path ih =>
    cases g with
    | function face name t => cases he
    | circuit face c =>
      obtain ⟨-, -, hc⟩ := sound_circuit_iff.mp h
      obtain ⟨child, hchild, he⟩ := Option.bind_eq_some_iff.mp he
      obtain ⟨⟨child', b⟩, hedit, he⟩ := Option.bind_eq_some_iff.mp he
      cases he
      obtain ⟨hs, hp⟩ := ih (hc.children hchild) hedit
      refine ⟨h.of_circuit (hc.replaceGate hchild hs hp) fun hm => ⟨hm.input, hm.output⟩, ?_⟩
      intro d path
      cases d <;> rfl

theorem Sound.perform {g : Gate} (h : g.Sound) (path : List GateId) {op : Operation}
    (hadd : ∀ a, op = .edit (.add a) → a.Sound ∧ a.Unlinked) : (g.perform path op).1.Sound := by
  rw [Gate.perform]
  cases he : g.editAt op.run path with
  | none => exact h
  | some r =>
    obtain ⟨g', hs⟩ := r
    exact (h.editAt (fun g hg => Operation.sound hg hadd) he).1

theorem Sound.samePlaces_perform {g : Gate} (h : g.Sound) (path : List GateId) {op : Operation}
    (hadd : ∀ a, op = .edit (.add a) → a.Sound ∧ a.Unlinked) :
    g.SamePlaces (g.perform path op).1 := by
  rw [Gate.perform]
  cases he : g.editAt op.run path with
  | none => exact .refl g
  | some r => exact (h.editAt (fun g hg => Operation.sound hg hadd) he).2

theorem Sound.mapPort {g : Gate} (h : g.Sound) {f : Port → Port} {d : Direction}
    (hs : (f (g.port d)).Shaped d) (hi : (f (g.port d)).interface = (g.port d).interface) :
    (g.mapPort f d).Sound := by
  have hshape : (g.mapPort f d).PortsShaped := by
    intro e
    rw [port_mapPort]
    split
    next he => exact he ▸ hs
    next => exact h.shaped e
  have htype : ∀ e, ((g.mapPort f d).port e).interface = (g.port e).interface := by
    intro e
    rw [port_mapPort]
    split
    next he => exact he ▸ hi
    next => rfl
  cases d with
  | output => exact h.mapFace hshape htype
  | input => exact h.mapFace hshape htype

end Gate

theorem Simulation.new_eq_ok {g : Gate} {s : Simulation} :
    Simulation.new g = .ok s ↔ ∃ input output path,
      g.input.connect inputLink [] g.input.interface = (input, .ok path) ∧
      g.output.attach [] outputLink = (output, .ok ()) ∧
      s = ⟨(g.mapInput fun _ => input).mapOutput fun _ => output,
        ⟨[(inputLink, .seeded hostEnd ⟨.gate 0, path⟩ g.input.interface none),
          (outputLink, .seeded rootEnd hostEnd g.output.interface none)], 2⟩, 0⟩ := by
  rcases hin : g.input.connect inputLink [] g.input.interface with ⟨input, e | path⟩
  · simp [Simulation.new, bind, Except.bind, hin]
  · rcases hout : g.output.attach [] outputLink with ⟨output, e | ⟨⟩⟩
    · simp [Simulation.new, bind, Except.bind, hin, hout]
    · simp only [Simulation.new, bind, Except.bind, hin, hout, pure, Except.pure]
      constructor
      · intro h
        exact ⟨input, output, path, rfl, rfl, (Except.ok.inj h).symm⟩
      · rintro ⟨_, _, _, hi, ho, rfl⟩
        cases hi
        cases ho
        rfl

theorem Simulation.root_setInput (s : Simulation) (v : Value) :
    (s.setInput v).1.root = s.root := by
  rw [setInput]
  split
  · rfl
  · split <;> rfl

namespace Gate

theorem Sound.driven {g : Gate} (h : g.Sound) {s : Simulation} (hs : Simulation.new g = .ok s) :
    s.root.Sound := by
  obtain ⟨input, output, path, hin, hout, rfl⟩ := Simulation.new_eq_ok.mp hs
  obtain ⟨hishape, hitype, -⟩ := Port.Shaped.connected (h.shaped .input) hin
  have hroot : (g.port .output).resolve [] = .ok ⟨[], _, _⟩ := rfl
  obtain ⟨-, hoshape, hotype, -⟩ :=
    Port.attach_resolved (h.shaped .output) hroot Simulation.outputLink
  rw [port, hout] at hoshape hotype
  have hmid := h.mapPort (d := .input) (f := fun _ => input) hishape hitype
  refine hmid.mapPort (d := .output) (f := fun _ => output) hoshape ?_
  rw [port_mapPort, if_neg (by simp)]
  exact hotype

theorem Reachable.sound {g : Gate} (h : g.Reachable) : g.Sound := by
  induction h with
  | transform typeName io name t => exact (sound_ofTransform typeName io name t).1
  | circuit typeName registry =>
    refine sound_circuit_iff.mpr ⟨?_, ⟨rfl, rfl⟩, Circuit.sound_empty registry⟩
    exact (portsShaped_new _ fun d => ⟨_, port_ofCircuit typeName _ d⟩).1
  | template h => exact (makesSound_ofTemplate _ _ _ h).1
  | step _ path op _ free ih iha => exact ih.perform path fun a ha => ⟨iha a ha, free a ha⟩
  | inside _ hg ih =>
    obtain ⟨-, -, hc⟩ := sound_circuit_iff.mp ih
    exact hc.children hg
  | driven _ hs ih => exact ih.driven hs

end Gate

def Circuit.edited (c : Circuit Gate) (edits : List Edit) : Circuit Gate :=
  edits.foldl (fun c e => (e.run c).1) c

theorem Circuit.edited_concat (c : Circuit Gate) (edits : List Edit) (e : Edit) :
    c.edited (edits ++ [e]) = (e.run (c.edited edits)).1 := by
  rw [edited, List.foldl_append]
  rfl

theorem Gate.Reachable.edited {face : Face} {c : Circuit Gate}
    (h : (Gate.circuit face c).Reachable) {edits : List Edit}
    (hadd : ∀ a, .add a ∈ edits → a.Reachable ∧ a.Unlinked) :
    (Gate.circuit face (c.edited edits)).Reachable := by
  induction edits generalizing c with
  | nil => exact h
  | cons e edits ih =>
    have hfirst : ∀ a, Operation.edit e = .edit (.add a) → a.Reachable ∧ a.Unlinked := by
      intro a ha
      cases ha
      exact hadd a List.mem_cons_self
    have hstep := h.step [] (.edit e) (fun a ha => (hfirst a ha).1) fun a ha => (hfirst a ha).2
    exact ih hstep fun a ha => hadd a (List.mem_cons_of_mem _ ha)

def Gate.inverter : Gate := .ofTransform "not" ⟨.bit none, .bit none⟩ "not" (Builtin.find? "not")

theorem Gate.inverter_usable : inverter.Reachable ∧ inverter.Unlinked :=
  ⟨.transform _ _ _ _, (sound_ofTransform _ _ _ _).2⟩

theorem Gate.reachable_of_inverters (name : String) (registry : Registry) {edits : List Edit}
    (h : ∀ a, .add a ∈ edits → a = .inverter) :
    (Gate.ofCircuit name ((Circuit.empty registry).edited edits)).Reachable := by
  refine .edited (.circuit name registry) fun a ha => ?_
  rw [h a ha]
  exact inverter_usable

end TickCircuit
