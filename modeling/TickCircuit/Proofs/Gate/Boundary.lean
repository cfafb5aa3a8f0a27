import TickCircuit.Proofs.Gate.Each
import TickCircuit.Proofs.Gate.Frame
import TickCircuit.Proofs.Gate.Synchrony
/-!
The boundary of a circuit. The outer ports and the inner ones have the same types at all times, so
what is read on one side can be written on the other, and a circuit fails only where it reads what
does not fit (`boundary_agrees`).
-/
namespace TickCircuit

def Fault.IsMismatch (e : Fault) : Prop := ∃ v i, e = .type (.valueMismatch v i)

namespace Port

/-- Whatever is read at `p` can be written at `q`. -/
def PassesTo (p q : Port) : Prop := ∀ t u v, p.read t = .ok (some v) → (q.write v u).2 = .ok ()

theorem Shaped.passesTo {d : Direction} {p q : Port} (hp : p.Shaped d) (hq : q.Shaped .output)
    (h : p.interface = q.interface) : p.PassesTo q := by
  intro t u v hv
  have ha := accepts_of_read hp hv
  rw [h] at ha
  rw [write_eq hq ha]

theorem PassesTo.of_pass_error {p q : Port} (h : p.PassesTo q) {t u : LinkTable} {e : Fault}
    (he : (Gate.pass (p.read t) q u).2 = .error e) : p.read t = .error e := by
  rcases hr : p.read t with e' | _ | v
  · rw [hr] at he
    cases he
    rfl
  · rw [hr] at he
    cases he
  · rw [hr] at he
    rw [Gate.pass, h t u v hr] at he
    cases he

theorem mismatch_of_read {p : Port} {t : LinkTable} {e : Fault} (h : p.read t = .error e) :
    e.IsMismatch := by
  obtain ⟨_, q, v, -, -, -, he⟩ := of_read_error h
  exact ⟨v, q.interface, he⟩

end Port

namespace Circuit
variable {c : Circuit Gate} {face : Face}

theorem read_of_pushed_error (hp : face.input.PassesTo c.innerInput) {outer links : LinkTable}
    {e : Fault} (h : c.pushed face outer = (links, .error e)) : face.input.read outer = .error e := by
  rw [pushed] at h
  split at h
  · cases h
  · exact hp.of_pass_error (congrArg Prod.snd h)

theorem read_of_pulled_error (hp : c.innerOutput.PassesTo face.output) {outer : LinkTable}
    {e : Fault} (h : (c.pulled face outer).2 = .error e) :
    c.innerOutput.read c.links = .error e := by
  rw [pulled] at h
  split at h
  · cases h
  · exact hp.of_pass_error h

end Circuit

namespace Gate

theorem Sound.passesTo {face : Face} {c : Circuit Gate} (h : (Gate.circuit face c).Sound) :
    face.input.PassesTo c.innerInput ∧ c.innerOutput.PassesTo face.output := by
  obtain ⟨hs, hm, hc⟩ := sound_circuit_iff.mp h
  exact ⟨Port.Shaped.passesTo (hs .input) hc.wired.innerInput hm.input,
    Port.Shaped.passesTo hc.wired.innerOutput (hs .output) hm.output.symm⟩

/-- A circuit that fails has failed to read, either at its outer input or, after the tick inside,
at its inner output. -/
theorem Sound.read_of_fault {face : Face} {c : Circuit Gate} (h : (Gate.circuit face c).Sound)
    {outer : LinkTable} {e : Fault}
    (he : ((Gate.circuit face c).update outer).1.face.fault = some e) :
    face.input.read outer = .error e ∨
      (c.ticked face outer).innerOutput.read (c.ticked face outer).links = .error e := by
  obtain ⟨-, -, hc⟩ := sound_circuit_iff.mp h
  obtain ⟨hin, hout⟩ := h.passesTo
  rcases hp : c.pushed face outer with ⟨links, e' | ⟨⟩⟩
  · rw [update_circuit_of_error hp] at he
    cases he
    exact .inl (Circuit.read_of_pushed_error hin hp)
  · rw [update_circuit_of_ok hp, hc.advanced_eq hp] at he
    have hpulled := (fault_withFault face _).mp he
    exact .inr (Circuit.read_of_pulled_error (c := c.ticked face outer) hout hpulled)

/-- The faults on record at circuits, at every depth, are values that did not fit. -/
inductive FailsOnRead : Gate → Prop where
  | function (face : Face) (name : String) (t : Option Transform) :
    FailsOnRead (.function face name t)
  | circuit {face : Face} {c : Circuit Gate} (fault : ∀ e, face.fault = some e → e.IsMismatch)
    (interior : ∀ e ∈ c.gates, FailsOnRead e.2) : FailsOnRead (.circuit face c)

theorem failsOnRead_circuit_iff {face : Face} {c : Circuit Gate} :
    (Gate.circuit face c).FailsOnRead ↔
      (∀ e, face.fault = some e → e.IsMismatch) ∧ c.Each FailsOnRead := by
  constructor
  · intro h
    obtain _ | ⟨fault, interior⟩ := h
    exact ⟨fault, interior⟩
  · intro h
    exact .circuit h.1 h.2

theorem FailsOnRead.mapFace {g : Gate} (h : g.FailsOnRead) {f : Face → Face}
    (hf : ∀ face, (f face).fault = face.fault) : (g.mapFace f).FailsOnRead := by
  cases h with
  | function face name t => exact .function (f face) name t
  | @circuit face c fault interior =>
    refine .circuit (fun e he => fault e ?_) interior
    rwa [hf] at he

theorem portBlind_failsOnRead : PortBlind FailsOnRead := by
  intro f d g h
  cases d <;> exact h.mapFace fun _ => rfl

theorem FailsOnRead.setBoundary {input output : Interface} {g g' : Gate} (h : g.FailsOnRead)
    (hg : g.setBoundary input output = (g', .ok ())) : g'.FailsOnRead := by
  cases g with
  | function face name t => cases hg
  | circuit face c =>
    obtain ⟨-, -, -, -, rfl⟩ := setBoundary_eq_ok.mp hg
    obtain ⟨fault, interior⟩ := failsOnRead_circuit_iff.mp h
    exact .circuit fault interior

theorem FailsOnRead.resolve {g g' : Gate} (h : g.FailsOnRead) (hg : g.resolve = (g', .ok ())) :
    g'.FailsOnRead := by
  cases g with
  | function face name t => cases hg
  | circuit face c =>
    obtain ⟨input, output, hb⟩ := resolve_eq_ok hg
    exact h.setBoundary hb

theorem failsOnRead_ofCircuit {c : Circuit Gate} (h : c.Each FailsOnRead) (typeName : String) :
    (ofCircuit typeName c).FailsOnRead := .circuit (fun _ he => nomatch he) h

theorem FailsOnRead.moved {g : Gate} (h : g.FailsOnRead) (p : Position) :
    (g.moved p).FailsOnRead := h.mapFace fun _ => rfl

theorem failsOnRead_ofTemplateWithin {registry : Registry} {expanding : List String}
    {typeName : String} {g : Gate} (h : ofTemplateWithin registry expanding typeName = .ok g) :
    g.FailsOnRead := by
  refine forall_ofTemplateWithin (P := FailsOnRead) (fun _ _ name => .function _ name _)
    (fun {make d c made} _ hmake hi typeName => ?_) FailsOnRead.setBoundary h
  have hinside := (Circuit.each_empty registry).insert portBlind_failsOnRead
    (fun name g p hm => (hmake name g hm).moved p) d .zero
  rw [hi] at hinside
  exact failsOnRead_ofCircuit hinside typeName

theorem FailsOnRead.insert {g : Gate} (h : g.FailsOnRead) (d : Description) (offset : Position) :
    (g.insert d offset).1.FailsOnRead := by
  cases g with
  | function face name t => exact h
  | circuit face c =>
    obtain ⟨fault, interior⟩ := failsOnRead_circuit_iff.mp h
    have hmake : ∀ name g p, ofTemplate c.registry name = .ok g → (g.moved p).FailsOnRead :=
      fun name g p hm => (failsOnRead_ofTemplateWithin hm).moved p
    have hinsert := interior.insert portBlind_failsOnRead hmake d offset
    rcases hi : c.insert (ofTemplate c.registry) d offset with ⟨c', e | made⟩
    · rw [hi] at hinsert
      rw [insert_of_failed hi]
      exact failsOnRead_circuit_iff.mpr ⟨fault, hinsert⟩
    · rw [hi] at hinsert
      have hc' := failsOnRead_circuit_iff.mpr ⟨fault, hinsert⟩
      rcases hr : (Gate.circuit face c').resolve with ⟨g, e | ⟨⟩⟩
      · rw [insert_of_refused hi hr]
        exact failsOnRead_circuit_iff.mpr ⟨fault, hinsert.rollback portBlind_failsOnRead made⟩
      · rw [insert_of_resolved hi hr]
        exact hc'.resolve hr

theorem Sound.failsOnRead_update {g : Gate} (hs : g.Sound) (h : g.FailsOnRead) (t : LinkTable) :
    (g.update t).1.FailsOnRead := by
  induction hs generalizing t with
  | function => exact .function _ _ _
  | @circuit face c shaped matched wired children ih =>
    have hs : (Gate.circuit face c).Sound := .circuit shaped matched wired children
    have hc : c.Sound := ⟨wired, fun {id g} => children id g⟩
    obtain ⟨-, interior⟩ := failsOnRead_circuit_iff.mp h
    have hfault : ∀ e, ((Gate.circuit face c).update t).1.face.fault = some e → e.IsMismatch := by
      intro e he
      obtain hr | hr := hs.read_of_fault he
      · exact Port.mismatch_of_read hr
      · exact Port.mismatch_of_read hr
    rcases hp : c.pushed face t with ⟨links, e | ⟨⟩⟩
    · rw [update_circuit_of_error hp] at hfault ⊢
      exact failsOnRead_circuit_iff.mpr ⟨hfault, interior⟩
    · rw [update_circuit_of_ok hp] at hfault ⊢
      refine failsOnRead_circuit_iff.mpr ⟨hfault, ?_⟩
      rw [hc.advanced_eq hp]
      have hgates : ∀ e ∈ c.gates, (e.2.update c.links).1.FailsOnRead := fun e he =>
        ih e.1 e.2 (Entries.get?_of_mem wired.gates_nodup he) (interior e he) c.links
      exact Entries.Each.map (P := FailsOnRead) (f := fun g => (g.update c.links).1) hgates

theorem FailsOnRead.click {g : Gate} (h : g.FailsOnRead) : g.click.1.FailsOnRead := by
  cases g with
  | function face name t => cases t <;> exact .function face name _
  | circuit face c => exact h

end Gate

theorem Edit.failsOnRead {c : Circuit Gate} (h : c.Each Gate.FailsOnRead) {e : Edit}
    (hadd : ∀ a, e = .add a → a.FailsOnRead) : (e.run c).1.Each Gate.FailsOnRead := by
  cases e with
  | create typeName =>
    rw [run, Circuit.create]
    cases hg : Gate.ofTemplate c.registry typeName with
    | error e => exact h
    | ok g => exact h.add (Gate.failsOnRead_ofTemplateWithin hg)
  | add g => exact h.add (hadd g rfl)
  | connect start end_ literal =>
    rw [run_connect]
    exact h.connect Gate.portBlind_failsOnRead start end_ literal
  | deleteLink id | removeLink id => exact h.deleteLink Gate.portBlind_failsOnRead id
  | removeGate id => exact h.removeGate Gate.portBlind_failsOnRead id
  | load registry => exact h

theorem Operation.failsOnRead {g : Gate} (hs : g.Sound) (h : g.FailsOnRead) {op : Operation}
    (hadd : ∀ a, op = .edit (.add a) → a.FailsOnRead) : (op.run g).1.FailsOnRead := by
  cases op with
  | edit e =>
    cases g with
    | function face name t => exact h
    | circuit face c =>
      obtain ⟨fault, interior⟩ := Gate.failsOnRead_circuit_iff.mp h
      have hedit := Edit.failsOnRead interior (e := e) fun a ha => hadd a (by rw [ha])
      exact Gate.failsOnRead_circuit_iff.mpr ⟨fault, hedit⟩
  | insert d offset =>
    have hi := h.insert d offset
    rw [run]
    rcases hk : g.insert d offset with ⟨g', e | ids⟩
    · rwa [hk] at hi
    · rwa [hk] at hi
  | resolve =>
    rw [run]
    rcases hr : g.resolve with ⟨g', e | ⟨⟩⟩
    · rwa [Gate.resolve_refused hr]
    · exact h.resolve hr
  | update outer => exact hs.failsOnRead_update h outer
  | click => exact h.click
  | rename name => exact h.mapFace fun _ => rfl
  | move p => exact h.moved p

namespace Gate

theorem FailsOnRead.editAt {α : Type} {f : Gate → Gate × α}
    (hf : ∀ g, g.Sound → g.FailsOnRead → (f g).1.FailsOnRead) {path : List GateId} {g g' : Gate}
    {a : α} (hs : g.Sound) (h : g.FailsOnRead) (he : g.editAt f path = some (g', a)) :
    g'.FailsOnRead := by
  induction path generalizing g g' with
  | nil =>
    have hg := hf g hs h
    rwa [Option.some.inj he] at hg
  | cons id path ih =>
    cases g with
    | function face name t => cases he
    | circuit face c =>
      obtain ⟨-, -, hc⟩ := sound_circuit_iff.mp hs
      obtain ⟨fault, interior⟩ := failsOnRead_circuit_iff.mp h
      obtain ⟨child, hchild, he⟩ := Option.bind_eq_some_iff.mp he
      obtain ⟨⟨child', b⟩, hedit, he⟩ := Option.bind_eq_some_iff.mp he
      cases he
      have hnew := ih (hc.children hchild) (Entries.Each.get? interior hchild) hedit
      exact failsOnRead_circuit_iff.mpr ⟨fault, Entries.Each.modify interior id fun _ _ => hnew⟩

theorem Reachable.failsOnRead {g : Gate} (h : g.Reachable) : g.FailsOnRead := by
  induction h with
  | transform typeName io name t => exact .function _ name t
  | circuit typeName registry =>
    exact failsOnRead_ofCircuit (Circuit.each_empty registry) typeName
  | template h => exact failsOnRead_ofTemplateWithin h
  | @step g hg path op _ _ ih iha =>
    rw [Gate.perform]
    cases he : g.editAt op.run path with
    | none => exact ih
    | some r =>
      obtain ⟨g', ids⟩ := r
      exact FailsOnRead.editAt (fun g hs h => Operation.failsOnRead hs h iha) hg.sound ih he
  | inside _ hg ih =>
    obtain ⟨-, interior⟩ := failsOnRead_circuit_iff.mp ih
    exact Entries.Each.get? interior hg
  | @driven g _ s hs ih =>
    obtain ⟨input, output, path, -, -, rfl⟩ := Simulation.new_eq_ok.mp hs
    have hin := portBlind_failsOnRead (fun _ => input) .input g ih
    exact portBlind_failsOnRead (fun _ => output) .output _ hin

theorem FailsOnRead.at? {g a : Gate} (h : g.FailsOnRead) {path : List GateId}
    (ha : g.at? path = some a) : a.FailsOnRead := by
  induction path generalizing g with
  | nil =>
    cases ha
    exact h
  | cons id path ih =>
    cases g with
    | function face name t => cases ha
    | circuit face c =>
      obtain ⟨-, interior⟩ := failsOnRead_circuit_iff.mp h
      obtain ⟨child, hchild, ha⟩ := Option.bind_eq_some_iff.mp ha
      exact ih (Entries.Each.get? interior hchild) ha

end Gate

/-- The outer ports of a circuit at any depth have the types of its inner ones, and an insertion or
a resolution that fails leaves all four as they are. So whatever is read on one side can be written
on the other, and the only fault a circuit can have is a value that it read and that does not fit,
at its outer input or at its inner output. -/
theorem boundary_agrees {g : Gate} (hg : g.Reachable) {path : List GateId} {face : Face}
    {c : Circuit Gate} (ha : g.at? path = some (.circuit face c)) :
    face.Matches c ∧
    (∀ d offset g' e, (Gate.circuit face c).insert d offset = (g', .error e) →
      ∃ c', g' = .circuit face c' ∧ c'.innerInput = c.innerInput ∧
        c'.innerOutput = c.innerOutput) ∧
    (∀ g' e, (Gate.circuit face c).resolve = (g', .error e) → g' = .circuit face c) ∧
    face.input.PassesTo c.innerInput ∧ c.innerOutput.PassesTo face.output ∧
    (∀ e, face.fault = some e → e.IsMismatch) ∧
    ∀ outer e, ((Gate.circuit face c).update outer).1.face.fault = some e →
      e.IsMismatch ∧ (face.input.read outer = .error e ∨
        (c.ticked face outer).innerOutput.read (c.ticked face outer).links = .error e) := by
  have hs := hg.sound.at? ha
  obtain ⟨-, hm, hc⟩ := Gate.sound_circuit_iff.mp hs
  obtain ⟨hfault, -⟩ := Gate.failsOnRead_circuit_iff.mp (hg.failsOnRead.at? ha)
  obtain ⟨hin, hout⟩ := hs.passesTo
  refine ⟨hm, fun d offset g' e h => ?_, fun g' e h => ?_, hin, hout, hfault,
    fun outer e he => ?_⟩
  · obtain ⟨n, -, c', made, hr, ⟨_, -, hi⟩ | ⟨_, hi⟩⟩ := Gate.insert_cases hc face d offset
    · rw [h] at hi
      cases hi
    · rw [h] at hi
      cases hi
      obtain ⟨orphans, hlarge, -⟩ := hr.rollback hc
      exact ⟨_, rfl, hlarge.innerInput, hlarge.innerOutput⟩
  · exact Gate.resolve_refused h
  · have hr := hs.read_of_fault he
    refine ⟨?_, hr⟩
    obtain hr | hr := hr
    · exact Port.mismatch_of_read hr
    · exact Port.mismatch_of_read hr

/-- The inner circuit has bits at its boundary on either side, of which the outer ones are linked. A
description that cannot be read leaves them as they are. -/
theorem boundary_agrees_fed : ∃ face c, (Gate.fed .series).at? [0] = some (.circuit face c) ∧
    face.Matches c ∧ c.innerInput.interface = .bit none ∧ c.innerOutput.interface = .bit none ∧
    (∃ c' e, (Gate.circuit face c).insert ⟨[], ["a"]⟩ .zero = (.circuit face c', .error e) ∧
      c'.innerInput = c.innerInput ∧ c'.innerOutput = c.innerOutput) ∧
    face.input.PassesTo c.innerInput ∧ c.innerOutput.PassesTo face.output := by
  have hat : (Gate.fed .series).at? [0] = some _ := rfl
  obtain ⟨hm, hinsert, -, hin, hout, -⟩ :=
    boundary_agrees (Gate.reachable_fed Gate.series_usable) hat
  refine ⟨_, _, hat, hm, rfl, rfl, ⟨_, _, rfl, ?_⟩, hin, hout⟩
  obtain ⟨_, he, hkept⟩ := hinsert ⟨[], ["a"]⟩ .zero _ _ rfl
  cases he
  exact hkept

end TickCircuit
