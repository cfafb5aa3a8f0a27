import TickCircuit.Proofs.Gate.Each
import TickCircuit.Proofs.Gate.Running
/-!
Properties of circuits that no operation breaks. Main statement: what holds of a new circuit and is
kept by each small step, a link made or taken away, gates that come or go, new types at the boundary
and a tick, holds at every depth of whatever is reachable (`Stable.reachable`).
-/
namespace TickCircuit

namespace Gate

def fixed? (d : Direction) : Gate → Option Interface
  | .function face name t => some ((Gate.function face name t).port d).interface
  | .circuit .. => none

theorem fixed?_update (g : Gate) (t : LinkTable) (d : Direction) :
    (g.update t).1.fixed? d = g.fixed? d := by
  cases g with
  | function face name f =>
    obtain ⟨face', f', he, hinput, houtput⟩ := update_function face name f t
    rw [he]
    cases d <;> simp only [fixed?, port, input, output, Gate.face, hinput, houtput]
  | circuit face c =>
    rcases hp : c.pushed face t with ⟨links, e | ⟨⟩⟩
    · rw [update_circuit_of_error hp]
      rfl
    · rw [update_circuit_of_ok hp]
      rfl

theorem fixed?_click (g : Gate) (d : Direction) : g.click.1.fixed? d = g.fixed? d := by
  cases g with
  | function face name t => cases t <;> cases d <;> rfl
  | circuit face c => rfl

theorem fixed?_of_setBoundary {input output : Interface} {g g' : Gate}
    (h : g.setBoundary input output = (g', .ok ())) (d : Direction) :
    g.fixed? d = none ∧ g'.fixed? d = none := by
  cases g with
  | function face name t => cases h
  | circuit face c =>
    obtain ⟨-, -, -, -, rfl⟩ := setBoundary_eq_ok.mp h
    exact ⟨rfl, rfl⟩

theorem fixed?_resolve {g g' : Gate} (h : g.resolve = (g', .ok ())) (d : Direction) :
    g'.fixed? d = g.fixed? d := by
  cases g with
  | function face name t => cases h
  | circuit face c =>
    obtain ⟨input, output, hb⟩ := resolve_eq_ok h
    exact (fixed?_of_setBoundary hb d).2

end Gate

theorem Operation.fixed? (op : Operation) (g : Gate) (d : Direction) :
    (op.run g).1.fixed? d = g.fixed? d := by
  cases op with
  | edit e => cases g <;> rfl
  | insert desc offset =>
    cases g with
    | function face name t => rfl
    | circuit face c =>
      rw [run]
      rcases hi : c.insert (Gate.ofTemplate c.registry) desc offset with ⟨c', e | made⟩
      · rw [Gate.insert_of_failed hi]
        rfl
      · rcases hr : (Gate.circuit face c').resolve with ⟨g', e | ⟨⟩⟩
        · rw [Gate.insert_of_refused hi hr]
          rfl
        · rw [Gate.insert_of_resolved hi hr]
          exact Gate.fixed?_resolve hr d
  | resolve =>
    rw [run]
    rcases hr : g.resolve with ⟨g', e | ⟨⟩⟩
    · rw [Gate.resolve_refused hr]
    · exact Gate.fixed?_resolve hr d
  | update outer => exact g.fixed?_update outer d
  | click => exact g.fixed?_click d
  | rename name => cases g <;> cases d <;> rfl
  | move p => cases g <;> cases d <;> rfl

theorem Gate.fixed?_editAt {op : Operation} {path : List GateId} {g g' : Gate}
    {handles : List Handle} (h : g.editAt op.run path = some (g', handles)) (d : Direction) :
    g'.fixed? d = g.fixed? d := by
  cases path with
  | nil =>
    have hfixed := op.fixed? g d
    have hrun : op.run g = (g', handles) := Option.some.inj h
    rwa [hrun] at hfixed
  | cons id path =>
    cases g with
    | function face name t => cases h
    | circuit face c =>
      obtain ⟨child, -, h⟩ := Option.bind_eq_some_iff.mp h
      obtain ⟨⟨child', b⟩, -, h⟩ := Option.bind_eq_some_iff.mp h
      cases h
      rfl

/-- The property holds of the interior of every circuit, at every depth. -/
inductive Gate.Inside (P : Circuit Gate → Prop) : Gate → Prop where
  | function (face : Face) (name : String) (t : Option Transform) :
    Inside P (.function face name t)
  | circuit {face : Face} {c : Circuit Gate} (here : P c)
    (interior : ∀ e ∈ c.gates, Inside P e.2) : Inside P (.circuit face c)

namespace Gate
variable {P : Circuit Gate → Prop}

theorem inside_circuit_iff {face : Face} {c : Circuit Gate} :
    (Gate.circuit face c).Inside P ↔ P c ∧ c.Each (Inside P) := by
  constructor
  · intro h
    obtain _ | ⟨here, interior⟩ := h
    exact ⟨here, interior⟩
  · intro h
    exact .circuit h.1 h.2

theorem Inside.mapFace {g : Gate} (h : g.Inside P) (f : Face → Face) : (g.mapFace f).Inside P := by
  cases h with
  | function face name t => exact .function (f face) name t
  | circuit here interior => exact .circuit here interior

theorem portBlind_inside : PortBlind (Inside P) := by
  intro f d g h
  cases d <;> exact h.mapFace _

theorem Inside.click {g : Gate} (h : g.Inside P) : g.click.1.Inside P := by
  cases g with
  | function face name t => cases t <;> exact .function face name _
  | circuit face c => exact h

end Gate

namespace Circuit

/-- No small step on a circuit breaks the property. -/
structure Stable (P : Circuit Gate → Prop) : Prop where
  empty : ∀ registry, P (.empty registry)
  withLink : ∀ {c start end_ literal l}, c.Sound → Joins c start end_ literal l → P c →
    P (c.withLink l)
  deleteLink : ∀ {c} id, c.Sound → P c → P (c.deleteLink id)
  enlarged : ∀ {c c' more}, c.Wired → c.Enlarged c' more → P c → P c'
  withoutGate : ∀ {c} id, c.Wired → P c → P (c.withoutGate id)
  replaceGate : ∀ {c id g g'}, c.gate? id = some g → (∀ d, g'.fixed? d = g.fixed? d) → P c →
    P (c.modifyGate id fun _ => g')
  around : ∀ {c} input output registry, P c →
    P { c with innerInput := input, innerOutput := output, registry := registry }
  ticked : ∀ {c} face outer, c.Sound → P c → P (c.ticked face outer)

variable {P : Circuit Gate → Prop} {c c' : Circuit Gate}

theorem Wired.enlarged_reserved (c : Circuit Gate) : c.Enlarged c.reserved [] where
  gates := (List.append_nil _).symm
  ids id hid := by cases hid
  nodup := .nil
  links := rfl
  innerInput := rfl
  innerOutput := rfl
  registry := rfl
  nextGate := Nat.le_refl _
  nextId := Nat.le_succ _

namespace Stable

theorem connect (hP : Stable P) (hc : c.Sound) (h : P c) (start end_ : LinkEnd)
    (literal : Option Value) : P (c.connect start end_ literal).1 := by
  obtain ⟨e, he⟩ | ⟨e, he⟩ | ⟨l, hj, he⟩ := connect_cases hc.wired.shaped start end_ literal
  · rw [he]
    exact h
  · rw [he]
    exact hP.enlarged hc.wired (Wired.enlarged_reserved c) h
  · rw [he]
    exact hP.withLink hc hj h

theorem deleteLinks (hP : Stable P) (hc : c.Sound) (h : P c) (ids : List LinkId) :
    P (c.deleteLinks ids) := by
  induction ids generalizing c with
  | nil => exact h
  | cons id ids ih => exact ih (hc.deleteLink id) (hP.deleteLink id hc h)

theorem removeGate (hP : Stable P) (hc : c.Sound) (h : P c) (id : GateId) :
    P (c.removeGate id).1 := by
  cases hg : c.gate? id with
  | none =>
    simp only [Circuit.removeGate, hg]
    exact h
  | some g =>
    rw [removeGate_eq hg]
    exact hP.withoutGate id (hc.wired.deleteLinks _) (hP.deleteLinks hc h _)

theorem add (hP : Stable P) (hc : c.Wired) (h : P c) (g : Gate) : P (c.add g) :=
  hP.enlarged hc (hc.enlarged_add g) h

theorem insertGates (hP : Stable P) {make : String → Except Fault Gate} (hmake : MakesSound make)
    (hc : c.Wired) (h : P c) (offset : Position) (made : Insertion) (entries : List GateEntry) :
    P (c.insertGates make offset made entries).1 := by
  induction entries generalizing c made with
  | nil => exact h
  | cons entry entries ih =>
    rw [Circuit.insertGates]
    cases hm : make entry.typeName with
    | error e => exact h
    | ok g =>
      obtain ⟨hs, hfree⟩ := hmake _ _ hm
      have hs := hs.moved ((entry.position.getD .zero).add offset)
      exact ih (hc.add hs.shaped (hfree.moved _)) (hP.add hc h _) _

theorem joined (hP : Stable P) {made : Insertion} {specs : List LinkSpec} {ls : List Link}
    (hj : Joined made c specs ls c') (hc : c.Sound) (h : P c) : P c' := by
  induction hj with
  | nil c => exact h
  | cons _ _ joins _ ih =>
    have hsound := hc.refaced (hc.wired.refaced_withLink joins) (hc.wired.withLink joins)
    exact ih hsound (hP.withLink hc joins h)

theorem insert (hP : Stable P) {make : String → Except Fault Gate} (hmake : MakesSound make)
    (hc : c.Sound) (h : P c) (d : Description) (offset : Position) :
    P (c.insert make d offset).1 := by
  obtain ⟨n, -, c', made, hr, hi | ⟨e, hi⟩⟩ := insert_cases hmake hc d offset
  · obtain ⟨c₀, made₀, specs, ls, hg, -, hj⟩ := (insert_eq_ok hmake hc).mp ⟨made, hi⟩
    have hgates := hP.insertGates hmake hc.wired h offset
      ⟨[], [], c.innerInput, c.innerOutput⟩ d.gates
    have hsound := hc.insertGates hmake offset d.gates
    rw [hg] at hgates hsound
    rw [hi]
    exact hP.joined hj hsound hgates
  · obtain ⟨orphans, henlarged, -⟩ := hr.rollback hc
    rw [hi]
    exact hP.enlarged hc.wired henlarged h

end Stable
end Circuit

namespace Gate
variable {P : Circuit Gate → Prop}
open Circuit (Stable)

theorem Inside.setBoundary (hP : Stable P) {input output : Interface} {g g' : Gate}
    (h : g.Inside P) (hg : g.setBoundary input output = (g', .ok ())) : g'.Inside P := by
  cases g with
  | function face name t => cases hg
  | circuit face c =>
    obtain ⟨-, -, -, -, rfl⟩ := setBoundary_eq_ok.mp hg
    obtain ⟨here, interior⟩ := inside_circuit_iff.mp h
    exact inside_circuit_iff.mpr ⟨hP.around _ _ c.registry here, interior⟩

theorem Inside.resolve (hP : Stable P) {g g' : Gate} (h : g.Inside P)
    (hg : g.resolve = (g', .ok ())) : g'.Inside P := by
  cases g with
  | function face name t => cases hg
  | circuit face c =>
    obtain ⟨input, output, hb⟩ := resolve_eq_ok hg
    exact h.setBoundary hP hb

theorem inside_ofTemplateWithin (hP : Stable P) {registry : Registry} {expanding : List String}
    {typeName : String} {g : Gate} (h : ofTemplateWithin registry expanding typeName = .ok g) :
    g.Inside P := by
  refine forall_ofTemplateWithin (P := Inside P) (fun _ _ name => .function _ name _)
    (fun {make d c made} hsound hmake hi _ => ?_) (fun h hb => h.setBoundary hP hb) h
  have here := hP.insert hsound (Circuit.sound_empty registry) (hP.empty registry) d .zero
  have interior := (Circuit.each_empty registry).insert portBlind_inside
    (fun name g p hm => (hmake name g hm).mapFace _) d .zero
  rw [hi] at here interior
  exact inside_circuit_iff.mpr ⟨here, interior⟩

theorem Inside.insert (hP : Stable P) {g : Gate} (hs : g.Sound) (h : g.Inside P)
    (d : Description) (offset : Position) : (g.insert d offset).1.Inside P := by
  cases g with
  | function face name t => exact h
  | circuit face c =>
    obtain ⟨-, -, hc⟩ := sound_circuit_iff.mp hs
    obtain ⟨here, interior⟩ := inside_circuit_iff.mp h
    have hsound := makesSound_ofTemplate c.registry
    have hmake : ∀ name g p, ofTemplate c.registry name = .ok g → (g.moved p).Inside P :=
      fun name g p hm => (inside_ofTemplateWithin hP hm).mapFace _
    have hhere := hP.insert hsound hc here d offset
    have hinterior := interior.insert portBlind_inside hmake d offset
    rcases hi : c.insert (ofTemplate c.registry) d offset with ⟨c', e | made⟩
    · rw [hi] at hhere hinterior
      rw [insert_of_failed hi]
      exact inside_circuit_iff.mpr ⟨hhere, hinterior⟩
    · rw [hi] at hhere hinterior
      rcases hr : (Gate.circuit face c').resolve with ⟨g, e | ⟨⟩⟩
      · obtain ⟨n, -, hrecords⟩ := Circuit.records_of_insert hsound hc hi
        obtain ⟨orphans, henlarged, -⟩ := hrecords.rollback hc
        rw [insert_of_refused hi hr]
        refine inside_circuit_iff.mpr ⟨hP.enlarged hc.wired henlarged here, ?_⟩
        exact hinterior.rollback portBlind_inside made
      · rw [insert_of_resolved hi hr]
        exact Inside.resolve hP (inside_circuit_iff.mpr ⟨hhere, hinterior⟩) hr

theorem Sound.inside_update (hP : Stable P) {g : Gate} (hs : g.Sound) (h : g.Inside P)
    (t : LinkTable) : (g.update t).1.Inside P := by
  induction hs generalizing t with
  | function => exact .function _ _ _
  | @circuit face c shaped matched wired children ih =>
    have hc : c.Sound := ⟨wired, fun {id g} => children id g⟩
    obtain ⟨here, interior⟩ := inside_circuit_iff.mp h
    obtain ⟨face', c', he, -, -, ⟨-, rfl⟩ | ⟨-, rfl⟩⟩ := hc.update_circuit face t
    · rw [he]
      refine inside_circuit_iff.mpr ⟨hP.ticked face t hc here, ?_⟩
      have hgates : ∀ e ∈ c.gates, (e.2.update c.links).1.Inside P := fun e he =>
        ih e.1 e.2 (Entries.get?_of_mem wired.gates_nodup he) (interior e he) c.links
      exact Entries.Each.map (P := Inside P) (f := fun g => (g.update c.links).1) hgates
    · rw [he]
      exact inside_circuit_iff.mpr ⟨here, interior⟩

end Gate

theorem Edit.inside {P : Circuit Gate → Prop} (hP : Circuit.Stable P) {c : Circuit Gate}
    (hc : c.Sound) (here : P c) (interior : c.Each (Gate.Inside P)) {e : Edit}
    (hadd : ∀ a, e = .add a → a.Inside P) : P (e.run c).1 ∧ (e.run c).1.Each (Gate.Inside P) := by
  cases e with
  | create typeName =>
    rw [run, Circuit.create]
    cases hg : Gate.ofTemplate c.registry typeName with
    | error e => exact ⟨here, interior⟩
    | ok g =>
      exact ⟨hP.add hc.wired here g, interior.add (Gate.inside_ofTemplateWithin hP hg)⟩
  | add g => exact ⟨hP.add hc.wired here g, interior.add (hadd g rfl)⟩
  | connect start end_ literal =>
    rw [run_connect]
    exact ⟨hP.connect hc here start end_ literal,
      interior.connect Gate.portBlind_inside start end_ literal⟩
  | deleteLink id | removeLink id =>
    exact ⟨hP.deleteLink id hc here, interior.deleteLink Gate.portBlind_inside id⟩
  | removeGate id =>
    exact ⟨hP.removeGate hc here id, interior.removeGate Gate.portBlind_inside id⟩
  | load registry =>
    exact ⟨hP.around c.innerInput c.innerOutput (c.registry.extend registry) here, interior⟩

theorem Operation.inside {P : Circuit Gate → Prop} (hP : Circuit.Stable P) {g : Gate}
    (hs : g.Sound) (h : g.Inside P) {op : Operation}
    (hadd : ∀ a, op = .edit (.add a) → a.Inside P) : (op.run g).1.Inside P := by
  cases op with
  | edit e =>
    cases g with
    | function face name t => exact h
    | circuit face c =>
      obtain ⟨-, -, hc⟩ := Gate.sound_circuit_iff.mp hs
      obtain ⟨here, interior⟩ := Gate.inside_circuit_iff.mp h
      have hedit := Edit.inside hP hc here interior (e := e) fun a ha => hadd a (by rw [ha])
      exact Gate.inside_circuit_iff.mpr hedit
  | insert d offset =>
    have hi := h.insert hP hs d offset
    rw [run]
    rcases hk : g.insert d offset with ⟨g', e | ids⟩
    · rwa [hk] at hi
    · rwa [hk] at hi
  | resolve =>
    rw [run]
    rcases hr : g.resolve with ⟨g', e | ⟨⟩⟩
    · rwa [Gate.resolve_refused hr]
    · exact h.resolve hP hr
  | update outer => exact hs.inside_update hP h outer
  | click => exact h.click
  | rename name => exact h.mapFace _
  | move p => exact h.mapFace _

namespace Gate
variable {P : Circuit Gate → Prop}
open Circuit (Stable)

theorem Inside.editAt (hP : Stable P) {op : Operation} {path : List GateId} {g g' : Gate}
    {handles : List Handle} (hadd : ∀ a, op = .edit (.add a) → a.Inside P) (hs : g.Sound)
    (h : g.Inside P) (he : g.editAt op.run path = some (g', handles)) : g'.Inside P := by
  induction path generalizing g g' with
  | nil =>
    have hg := Operation.inside hP hs h hadd
    have hrun : op.run g = (g', handles) := Option.some.inj he
    rwa [hrun] at hg
  | cons id path ih =>
    cases g with
    | function face name t => cases he
    | circuit face c =>
      obtain ⟨-, -, hc⟩ := sound_circuit_iff.mp hs
      obtain ⟨here, interior⟩ := inside_circuit_iff.mp h
      obtain ⟨child, hchild, he⟩ := Option.bind_eq_some_iff.mp he
      obtain ⟨⟨child', b⟩, hedit, he⟩ := Option.bind_eq_some_iff.mp he
      cases he
      have hnew := ih (hc.children hchild) (Entries.Each.get? interior hchild) hedit
      have hinterior := Entries.Each.modify interior id (f := fun _ => child') fun _ _ => hnew
      exact inside_circuit_iff.mpr ⟨hP.replaceGate hchild (fixed?_editAt hedit) here, hinterior⟩

end Gate

/-- What no small step breaks holds at every depth of whatever is reachable. -/
theorem Circuit.Stable.reachable {P : Circuit Gate → Prop} (hP : Stable P) {g : Gate}
    (h : g.Reachable) : g.Inside P := by
  induction h with
  | transform typeName io name t => exact .function _ name t
  | circuit typeName registry => exact .circuit (hP.empty registry) fun _ he => by cases he
  | template h => exact Gate.inside_ofTemplateWithin hP h
  | @step g hg path op _ _ ih iha =>
    rw [Gate.perform]
    cases he : g.editAt op.run path with
    | none => exact ih
    | some r => exact Gate.Inside.editAt hP iha hg.sound ih he
  | inside _ hg ih =>
    obtain ⟨-, interior⟩ := Gate.inside_circuit_iff.mp ih
    exact Entries.Each.get? interior hg
  | @driven g _ s hs ih =>
    obtain ⟨input, output, path, -, -, rfl⟩ := Simulation.new_eq_ok.mp hs
    have hin := Gate.portBlind_inside (fun _ => input) .input g ih
    exact Gate.portBlind_inside (fun _ => output) .output _ hin

end TickCircuit
