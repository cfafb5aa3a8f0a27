import TickCircuit.Gate.Boundary
import TickCircuit.Proofs.Gate.Tick
/-!
Soundness of gates at every depth. Main statements: what is done to the wiring, a tick and new
types at the boundary all keep it.
-/
namespace TickCircuit

/-- The outer ports of a circuit have the types of its inner ones. -/
structure Face.Matches (face : Face) (c : Circuit Gate) : Prop where
  input : face.input.interface = c.innerInput.interface
  output : face.output.interface = c.innerOutput.interface

/-- Ports have the shape of their interfaces, and circuits are wired, at every depth. -/
inductive Gate.Sound : Gate → Prop where
  | function {face : Face} {name : String} {t : Option Transform}
    (shaped : (Gate.function face name t).PortsShaped) : Sound (.function face name t)
  | circuit {face : Face} {c : Circuit Gate} (shaped : (Gate.circuit face c).PortsShaped)
    (matched : face.Matches c) (wired : c.Wired)
    (children : ∀ id g, c.gate? id = some g → Sound g) : Sound (.circuit face c)

structure Circuit.Sound (c : Circuit Gate) : Prop where
  wired : c.Wired
  children : ∀ {id g}, c.gate? id = some g → g.Sound

namespace Gate

theorem Sound.shaped {g : Gate} (h : g.Sound) : g.PortsShaped := by
  cases h with
  | function shaped => exact shaped
  | circuit shaped => exact shaped

theorem sound_circuit_iff {face : Face} {c : Circuit Gate} :
    (Gate.circuit face c).Sound ↔ (Gate.circuit face c).PortsShaped ∧ face.Matches c ∧ c.Sound := by
  constructor
  · intro h
    obtain _ | ⟨shaped, matched, wired, children⟩ := h
    exact ⟨shaped, matched, wired, children _ _⟩
  · intro h
    obtain ⟨shaped, matched, wired, children⟩ := h
    exact .circuit shaped matched wired fun _ _ => children

theorem PortsShaped.of_port_eq {g h : Gate} (hg : g.PortsShaped) (hp : ∀ d, h.port d = g.port d) :
    h.PortsShaped := fun d => by
  rw [hp]
  exact hg d

/-- What is inside a gate does not depend on its face, but for the types of its ports. -/
theorem Sound.mapFace {g : Gate} (h : g.Sound) {f : Face → Face} (hs : (g.mapFace f).PortsShaped)
    (hi : ∀ d, ((g.mapFace f).port d).interface = (g.port d).interface) : (g.mapFace f).Sound := by
  cases h with
  | function => exact .function hs
  | circuit _ matched wired children =>
    exact .circuit hs ⟨(hi .input).trans matched.input, (hi .output).trans matched.output⟩ wired
      children

theorem Sound.of_same_ports {g : Gate} (h : g.Sound) {f : Face → Face}
    (hp : ∀ d, (g.mapFace f).port d = g.port d) : (g.mapFace f).Sound :=
  h.mapFace (h.shaped.of_port_eq hp) fun d => congrArg Port.interface (hp d)

end Gate

namespace Circuit
variable {c c' c'' : Circuit Gate}

/-- Every gate of `c'` is one of `c`, with other links at its ports at most. -/
structure Refaced (c c' : Circuit Gate) : Prop where
  gate : ∀ {id g'}, c'.gate? id = some g' → ∃ g f, c.gate? id = some g ∧ g' = g.mapFace f
  port : ∀ {d n p}, c'.port? d n = some p → ∃ q, c.port? d n = some q ∧ p.interface = q.interface

theorem mapFace_id (g : Gate) : g.mapFace id = g := by
  cases g <;> rfl

theorem Refaced.refl (c : Circuit Gate) : c.Refaced c :=
  ⟨fun {_ g} h => ⟨g, id, h, (mapFace_id g).symm⟩, fun {_ _ p} h => ⟨p, h, rfl⟩⟩

theorem Refaced.trans (h : c.Refaced c') (h' : c'.Refaced c'') : c.Refaced c'' where
  gate hg'' := by
    obtain ⟨g', f', hg', rfl⟩ := h'.gate hg''
    obtain ⟨g, f, hg, rfl⟩ := h.gate hg'
    refine ⟨g, f' ∘ f, hg, ?_⟩
    cases g <;> rfl
  port hp := by
    obtain ⟨q, hq, hi⟩ := h'.port hp
    obtain ⟨r, hr, hi'⟩ := h.port hq
    exact ⟨r, hr, hi.trans hi'⟩

theorem Refaced.matches {face : Face} (h : c.Refaced c') (hm : face.Matches c) :
    face.Matches c' := by
  obtain ⟨p, hp, hi⟩ := h.port (d := .output) (n := .boundary) rfl
  obtain ⟨q, hq, ho⟩ := h.port (d := .input) (n := .boundary) rfl
  cases hp
  cases hq
  exact ⟨hm.input.trans hi.symm, hm.output.trans ho.symm⟩

theorem Sound.refaced (h : c.Sound) (hr : c.Refaced c') (hw : c'.Wired) : c'.Sound where
  wired := hw
  children {id g'} hg' := by
    obtain ⟨g, f, hg, rfl⟩ := hr.gate hg'
    have hport : ∀ d, c'.port? d (.gate id) = some ((g.mapFace f).port d) := by
      intro d
      rw [port?, hg']
      rfl
    refine (h.children hg).mapFace (fun d => hw.shaped (hport d)) fun d => ?_
    obtain ⟨q, hq, hi⟩ := hr.port (hport d)
    rw [port?, hg, Option.map_some, Option.some.injEq] at hq
    rw [hi, hq]

theorem gate_mapPort {f : Port → Port} {d : Direction} {n : Node} {id : GateId} {g' : Gate}
    (h : (c.mapPort f d n).gate? id = some g') : ∃ g f, c.gate? id = some g ∧ g' = g.mapFace f := by
  have hself : c.gate? id = some g' → ∃ g f, c.gate? id = some g ∧ g' = g.mapFace f :=
    fun h => ⟨g', (fun x => x), h, (mapFace_id g').symm⟩
  cases n with
  | gate j =>
    rw [mapPort_gate, gate?, modifyGate, Entries.get?_modify] at h
    split at h
    · obtain ⟨g, hg, rfl⟩ := Option.map_eq_some_iff.mp h
      cases d
      · exact ⟨g, _, hg, rfl⟩
      · exact ⟨g, _, hg, rfl⟩
    · exact hself h
  | boundary => cases d <;> exact hself h
  | host => cases d <;> exact hself h

theorem Wired.refaced_withLink (h : c.Wired) {start end_ : LinkEnd} {literal : Option Value}
    {l : Link} (hj : Joins c start end_ literal l) : c.Refaced (c.withLink l) where
  gate hg'' := by
    obtain ⟨g', f', hg', rfl⟩ := gate_mapPort (d := .output) hg''
    obtain ⟨g, f, hg, rfl⟩ := gate_mapPort (d := .input) hg'
    refine ⟨g, f' ∘ f, hg, ?_⟩
    cases g <;> rfl
  port hp := by
    obtain ⟨q, hq, -, hi, -⟩ := h.port_withLink hj hp
    exact ⟨q, hq, hi⟩

theorem Wired.refaced_connect (h : c.Wired) (start end_ : LinkEnd) (literal : Option Value) :
    c.Refaced (c.connect start end_ literal).1 := by
  obtain ⟨e, he⟩ | ⟨e, he⟩ | ⟨l, hj, he⟩ := connect_cases h.shaped start end_ literal
  · rw [he]
    exact .refl c
  · rw [he]
    refine ⟨(Refaced.refl c).gate, fun {d n p} hp => ?_⟩
    rw [Circuit.reserved, port?_withLinks] at hp
    exact ⟨p, hp, rfl⟩
  · rw [he]
    exact h.refaced_withLink hj

theorem Wired.refaced_deleteLink (h : c.Wired) (id : LinkId) : c.Refaced (c.deleteLink id) where
  gate {j g'} hg'' := by
    cases hl : c.links.get? id with
    | none =>
      rw [deleteLink_of_not_mem (Entries.get?_eq_none_iff.mp hl)] at hg''
      exact (Refaced.refl c).gate hg''
    | some l =>
      rw [deleteLink_eq hl] at hg''
      obtain ⟨g', f', hg', rfl⟩ := gate_mapPort hg''
      obtain ⟨g, f, hg, rfl⟩ := gate_mapPort hg'
      refine ⟨g, f' ∘ f, hg, ?_⟩
      cases g <;> rfl
  port hp := by
    obtain ⟨q, hq, -, hi, -⟩ := h.port_deleteLink hp
    exact ⟨q, hq, hi⟩

theorem Wired.refaced_deleteLinks (h : c.Wired) (ids : List LinkId) :
    c.Refaced (c.deleteLinks ids) := by
  induction ids generalizing c with
  | nil => exact .refl c
  | cons id ids ih => exact (h.refaced_deleteLink id).trans (ih (h.deleteLink id))

theorem Wired.refaced_withoutGate (h : c.Wired) (id : GateId) :
    c.Refaced (c.withoutGate id) where
  gate hg := by
    rw [gate?, Circuit.withoutGate, Entries.get?_erase h.gates_nodup] at hg
    split at hg
    · cases hg
    · exact (Refaced.refl c).gate hg
  port hp := by
    rw [h.port?_withoutGate] at hp
    split at hp
    · cases hp
    · exact ⟨_, hp, rfl⟩

theorem Wired.refaced_removeGate (h : c.Wired) (id : GateId) :
    c.Refaced (c.removeGate id).1 := by
  cases hg : c.gate? id with
  | none =>
    simp only [Circuit.removeGate, hg]
    exact .refl c
  | some g =>
    rw [removeGate_eq hg]
    exact (h.refaced_deleteLinks _).trans ((h.deleteLinks _).refaced_withoutGate id)

theorem Sound.connect (h : c.Sound) (start end_ : LinkEnd) (literal : Option Value) :
    (c.connect start end_ literal).1.Sound :=
  h.refaced (h.wired.refaced_connect start end_ literal) (h.wired.connect start end_ literal)

theorem Sound.deleteLink (h : c.Sound) (id : LinkId) : (c.deleteLink id).Sound :=
  h.refaced (h.wired.refaced_deleteLink id) (h.wired.deleteLink id)

theorem Sound.removeGate (h : c.Sound) (id : GateId) : (c.removeGate id).1.Sound :=
  h.refaced (h.wired.refaced_removeGate id) (h.wired.removeGate id)

theorem Sound.add (h : c.Sound) {g : Gate} (hg : g.Sound) (hfree : g.Unlinked) :
    (c.add g).Sound where
  wired := h.wired.add hg.shaped hfree
  children {id g'} hg' := by
    rw [gate?, Circuit.add, Entries.get?_put] at hg'
    split at hg'
    · cases hg'
      exact hg
    · exact h.children hg'

theorem Sound.replaceGate (h : c.Sound) {id : GateId} {g g' : Gate} (hg : c.gate? id = some g)
    (hs : g'.Sound) (hsame : g.SamePlaces g') : (c.modifyGate id fun _ => g').Sound where
  wired := h.wired.replaceGate hg hs.shaped hsame
  children {j a} ha := by
    rw [gate?, Circuit.modifyGate, Entries.get?_modify] at ha
    split at ha
    · obtain ⟨_, -, rfl⟩ := Option.map_eq_some_iff.mp ha
      exact hs
    · exact h.children ha

end Circuit

def LinkTable.blank (t : LinkTable) : LinkTable :=
  { t with entries := t.entries.map fun (id, l) => (id, { l with current := none, last := none }) }

theorem LinkTable.blank_stale (t : LinkTable) : t.stale.blank = t.blank := by
  simp [blank, stale, Function.comp_def]

theorem LinkTable.blank_of_stale {t u : LinkTable} (h : t.stale = u.stale) : t.blank = u.blank := by
  rw [← blank_stale, h, blank_stale]

theorem LinkTable.blank_updateAll (t : LinkTable) : t.updateAll.blank = t.blank := by
  simp [blank, updateAll, Link.update, Function.comp_def]

theorem LinkTable.ids_blank (t : LinkTable) : t.blank.ids = t.ids := by
  simp [ids, Entries.keys, blank, Function.comp_def]

theorem LinkTable.of_blank {t u : LinkTable} (h : t.blank = u.blank) :
    t.ids = u.ids ∧ t.nextId = u.nextId := by
  constructor
  · rw [← ids_blank, h, ids_blank]
  · have hid := congrArg nextId h
    exact hid

theorem LinkTable.endAt_blank (t : LinkTable) (d : Direction) (id : LinkId) :
    (t.blank.get? id).map (·.endAt d) = (t.get? id).map (·.endAt d) := by
  have h := Entries.get?_map (fun l : Link => { l with current := none, last := none }) id t.entries
  rw [LinkTable.get?, LinkTable.blank, LinkTable.get?]
  simp only
  rw [h, Option.map_map]
  cases d <;> rfl

namespace Circuit
variable {c : Circuit Gate}

theorem Wired.of_same_ports (h : c.Wired) {c' : Circuit Gate} (hgates : c'.gateIds = c.gateIds)
    (hnext : c'.nextGate = c.nextGate) (hlinks : c'.links.blank = c.links.blank)
    (hports : ∀ d n, c'.port? d n = c.port? d n) : c'.Wired := by
  obtain ⟨hids, hid⟩ := LinkTable.of_blank hlinks
  refine h.of_same_places hgates hnext hids hid (fun d id => ?_) fun {d n p} hp => ?_
  · rw [end?, ← LinkTable.endAt_blank, hlinks, LinkTable.endAt_blank, end?]
  · rw [hports] at hp
    exact ⟨h.shaped hp, p, hp, fun _ => rfl⟩

theorem Wired.retyped (h : c.Wired) {input output : Interface}
    (hi : c.innerInput.checkRetype input = .ok ()) (ho : c.innerOutput.checkRetype output = .ok ()) :
    Wired { c with
      innerInput := c.innerInput.retyped input
      innerOutput := c.innerOutput.retyped output } := by
  refine h.of_same_places rfl rfl rfl rfl (fun _ _ => rfl) fun {d n p} hp => ?_
  cases n with
  | gate id => exact ⟨h.shaped (d := d) (n := .gate id) hp, p, hp, fun _ => rfl⟩
  | boundary =>
    cases d with
    | output =>
      cases hp
      exact ⟨h.innerInput.retyped input, _, rfl, Port.linksAt_retyped hi⟩
    | input =>
      cases hp
      exact ⟨h.innerOutput.retyped output, _, rfl, Port.linksAt_retyped ho⟩
  | host => cases d <;> cases hp

theorem Sound.shaped_gates (h : c.Sound) : ∀ e ∈ c.gates, e.2.PortsShaped := fun _ he =>
  (h.children (Entries.get?_of_mem h.wired.gates_nodup he)).shaped

theorem Sound.gate?_advanced (h : c.Sound) (links : LinkTable) (id : GateId) :
    (c.advanced links).gate? id = (c.gate? id).map fun g => (g.update links).1 := by
  rw [gate?, Circuit.advanced, Gate.updateAll_eq h.shaped_gates]
  exact Entries.get?_map (fun g : Gate => (g.update links).1) id c.gates

theorem Sound.blank_advanced (h : c.Sound) {links : LinkTable}
    (hlinks : links.stale = c.links.stale) : (c.advanced links).links.blank = c.links.blank := by
  rw [Circuit.advanced, Gate.updateAll_eq h.shaped_gates, LinkTable.blank_updateAll]
  exact LinkTable.blank_of_stale ((LinkTable.stale_writeEach _ _).trans hlinks)

theorem Sound.port?_advanced (h : c.Sound) (links : LinkTable) (d : Direction) (n : Node) :
    (c.advanced links).port? d n = c.port? d n := by
  cases n with
  | gate id =>
    rw [port?, h.gate?_advanced, port?, Option.map_map]
    congr 1
    funext g
    exact g.port_update links d
  | boundary => cases d <;> rfl
  | host => cases d <;> rfl

theorem Sound.advanced (h : c.Sound)
    (hchildren : ∀ id g, c.gate? id = some g → ∀ t, (g.update t).1.Sound) {links : LinkTable}
    (hlinks : links.stale = c.links.stale) : (c.advanced links).Sound := by
  constructor
  · refine h.wired.of_same_ports ?_ rfl (h.blank_advanced hlinks) (h.port?_advanced links)
    rw [gateIds, Circuit.advanced, Gate.updateAll_eq h.shaped_gates]
    simp [gateIds, Entries.keys, Function.comp_def]
  · intro id g' hg'
    rw [h.gate?_advanced] at hg'
    obtain ⟨g, hg, rfl⟩ := Option.map_eq_some_iff.mp hg'
    exact hchildren id g hg links

end Circuit

namespace Gate

theorem PortsShaped.update {g : Gate} (h : g.PortsShaped) (t : LinkTable) :
    (g.update t).1.PortsShaped := h.of_port_eq (g.port_update t)

theorem Sound.update {g : Gate} (h : g.Sound) (t : LinkTable) : (g.update t).1.Sound := by
  induction h generalizing t with
  | @function face name f shaped =>
    have hs := shaped.update t
    exact .function hs
  | @circuit face c shaped matched wired children ih =>
    have hs := shaped.update t
    have hstale := stale_pushed wired.innerInput face t
    have hc : c.Sound := ⟨wired, fun {id g} => children id g⟩
    match hp : c.pushed face t with
    | (links, .error e) =>
      rw [update_circuit_of_error hp] at hs ⊢
      rw [hp] at hstale
      refine sound_circuit_iff.mpr ⟨hs, ⟨matched.input, matched.output⟩, ?_, hc.children⟩
      exact wired.of_same_ports rfl rfl (LinkTable.blank_of_stale hstale) fun d n =>
        Circuit.port?_withLinks d n links
    | (links, .ok ()) =>
      rw [update_circuit_of_ok hp] at hs ⊢
      rw [hp] at hstale
      refine sound_circuit_iff.mpr ⟨hs, ?_, hc.advanced ih hstale⟩
      cases ((c.advanced links).pulled face t).2 <;> exact ⟨matched.input, matched.output⟩

theorem checkBoundary_eq_ok {input output : Interface} {face : Face} {c : Circuit Gate} :
    checkBoundary input output face c = .ok () ↔
      face.input.checkRetype input = .ok () ∧ c.innerInput.checkRetype input = .ok () ∧
      face.output.checkRetype output = .ok () ∧ c.innerOutput.checkRetype output = .ok () := by
  simp only [checkBoundary, bind, Except.bind]
  cases face.input.checkRetype input <;> cases c.innerInput.checkRetype input <;>
    cases face.output.checkRetype output <;> simp

/-- What new types at the boundary ask for, and what they make of a circuit. -/
theorem setBoundary_eq_ok {input output : Interface} {face : Face} {c : Circuit Gate} {g : Gate} :
    (Gate.circuit face c).setBoundary input output = (g, .ok ()) ↔
      face.input.checkRetype input = .ok () ∧ c.innerInput.checkRetype input = .ok () ∧
      face.output.checkRetype output = .ok () ∧ c.innerOutput.checkRetype output = .ok () ∧
      g = .circuit
        { face with input := face.input.retyped input, output := face.output.retyped output }
        { c with
          innerInput := c.innerInput.retyped input
          innerOutput := c.innerOutput.retyped output } := by
  cases hcheck : checkBoundary input output face c with
  | error e =>
    simp only [setBoundary, hcheck, Prod.mk.injEq, reduceCtorEq, and_false, false_iff]
    rintro ⟨hfi, hci, hfo, hco, -⟩
    rw [checkBoundary_eq_ok.mpr ⟨hfi, hci, hfo, hco⟩] at hcheck
    cases hcheck
  | ok =>
    obtain ⟨hfi, hci, hfo, hco⟩ := checkBoundary_eq_ok.mp hcheck
    simp [setBoundary, hcheck, hfi, hci, hfo, hco, eq_comm]

theorem setBoundary_refused {input output : Interface} {g g' : Gate} {e : Fault}
    (h : g.setBoundary input output = (g', .error e)) : g' = g := by
  cases g with
  | function face name t => exact (congrArg Prod.fst h).symm
  | circuit face c =>
    rw [setBoundary] at h
    cases hcheck : checkBoundary input output face c with
    | error e' =>
      rw [hcheck] at h
      exact (congrArg Prod.fst h).symm
    | ok =>
      rw [hcheck] at h
      simp at h

/-- New types leave every link at its place, and bring outer and inner ports together. -/
theorem sound_setBoundary {input output : Interface} {face : Face} {c : Circuit Gate} {g : Gate}
    (hs : (Gate.circuit face c).PortsShaped) (hc : c.Sound)
    (h : (Gate.circuit face c).setBoundary input output = (g, .ok ())) :
    g.Sound ∧ (Gate.circuit face c).SamePlaces g := by
  obtain ⟨hfi, hci, hfo, hco, rfl⟩ := setBoundary_eq_ok.mp h
  have hshaped : (Gate.circuit { face with
      input := face.input.retyped input, output := face.output.retyped output } { c with
        innerInput := c.innerInput.retyped input
        innerOutput := c.innerOutput.retyped output }).PortsShaped := by
    intro d
    cases d with
    | output => exact (hs .output).retyped output
    | input => exact (hs .input).retyped input
  refine ⟨sound_circuit_iff.mpr ⟨hshaped, ⟨?_, ?_⟩, ?_, hc.children⟩, fun d path => ?_⟩
  · rw [Port.interface_retyped, Port.interface_retyped]
  · rw [Port.interface_retyped, Port.interface_retyped]
  · exact hc.wired.retyped hci hco
  · cases d with
    | output => exact Port.linksAt_retyped hfo path
    | input => exact Port.linksAt_retyped hfi path

/-- Resolving a boundary is one retyping of it, to the types that the wiring implies. -/
theorem resolve_iff {face : Face} {c : Circuit Gate} {g : Gate} :
    (Gate.circuit face c).resolve = (g, .ok ()) ↔ ∃ input output,
      c.boundaryTypes = .ok (input, output) ∧
      (Gate.circuit face c).setBoundary input output = (g, .ok ()) := by
  simp only [resolve, circuit?, bind, Except.bind]
  cases hb : c.boundaryTypes with
  | error e => simp
  | ok types =>
    constructor
    · intro h
      exact ⟨types.1, types.2, rfl, h⟩
    · intro h
      obtain ⟨input, output, ht, h⟩ := h
      cases ht
      exact h

theorem resolve_refused {g g' : Gate} {e : Fault} (h : g.resolve = (g', .error e)) : g' = g := by
  rw [resolve] at h
  cases htypes : g.circuit? >>= Circuit.boundaryTypes with
  | error e' =>
    rw [htypes] at h
    exact (congrArg Prod.fst h).symm
  | ok types =>
    rw [htypes] at h
    exact setBoundary_refused h

theorem finished_eq_ok {r : Gate × Except Fault Unit} {g : Gate} :
    finished r = .ok g ↔ r = (g, .ok ()) := by
  obtain ⟨g', e | ⟨⟩⟩ := r <;> simp [finished]

theorem resolve_eq_ok {face : Face} {c : Circuit Gate} {g : Gate}
    (h : (Gate.circuit face c).resolve = (g, .ok ())) :
    ∃ input output, (Gate.circuit face c).setBoundary input output = (g, .ok ()) := by
  obtain ⟨input, output, -, hb⟩ := resolve_iff.mp h
  exact ⟨input, output, hb⟩

end Gate
end TickCircuit
