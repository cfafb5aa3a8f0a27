import TickCircuit.Gate.Template
import TickCircuit.Proofs.Gate.Insert
import TickCircuit.Proofs.Results
/-!
Gates from templates are sound, and no link is attached to them (`makesSound_ofTemplate`). Hence an
insertion keeps a circuit sound, whether or not it succeeds (`Sound.insert`).
-/
namespace TickCircuit
namespace Gate

theorem portsShaped_new (g : Gate) (h : ∀ d, ∃ i, g.port d = .new d i) :
    g.PortsShaped ∧ g.Unlinked := by
  constructor
  · intro d
    obtain ⟨i, hi⟩ := h d
    rw [hi]
    exact Port.shaped_new d i
  · intro d path
    obtain ⟨i, hi⟩ := h d
    rw [hi]
    exact Port.linksAt_new d i path

theorem port_ofTransform (typeName : String) (io : Io) (name : String) (t : Option Transform)
    (d : Direction) : ∃ i, (ofTransform typeName io name t).port d = .new d i := by
  cases d <;> exact ⟨_, rfl⟩

theorem port_ofCircuit (typeName : String) (c : Circuit Gate) (d : Direction) :
    (ofCircuit typeName c).port d = .new d default := by
  cases d <;> rfl

theorem sound_ofTransform (typeName : String) (io : Io) (name : String) (t : Option Transform) :
    (ofTransform typeName io name t).Sound ∧ (ofTransform typeName io name t).Unlinked := by
  obtain ⟨hs, hfree⟩ := portsShaped_new _ (port_ofTransform typeName io name t)
  exact ⟨.function hs, hfree⟩

theorem Unlinked.samePlaces {g h : Gate} (hg : g.Unlinked) (hs : g.SamePlaces h) : h.Unlinked := by
  intro d path
  rw [hs d path, hg d path]

theorem close_eq_ok {typeName : String} {io : Io} {c : Circuit Gate} {g : Gate} :
    close typeName io c = .ok g ↔ ∃ g₁ input output,
      (ofCircuit typeName c).resolve = (g₁, .ok ()) ∧
      io.input.merge g₁.input.interface = .ok input ∧
      io.output.merge g₁.output.interface = .ok output ∧
      g₁.setBoundary input output = (g, .ok ()) := by
  constructor
  · intro h
    obtain ⟨g₁, hr, h⟩ := bind_eq_ok.mp h
    obtain ⟨input, hi, h⟩ := bind_eq_ok.mp h
    obtain ⟨output, ho, h⟩ := bind_eq_ok.mp h
    exact ⟨g₁, input, output, finished_eq_ok.mp hr, mapError_eq_ok.mp hi, mapError_eq_ok.mp ho,
      finished_eq_ok.mp h⟩
  · intro h
    obtain ⟨g₁, input, output, hr, hi, ho, h⟩ := h
    exact bind_eq_ok.mpr ⟨g₁, finished_eq_ok.mpr hr, bind_eq_ok.mpr ⟨input, mapError_eq_ok.mpr hi,
      bind_eq_ok.mpr ⟨output, mapError_eq_ok.mpr ho, finished_eq_ok.mpr h⟩⟩⟩

theorem close_sound {typeName : String} {io : Io} {c : Circuit Gate} {g : Gate} (hc : c.Sound)
    (h : close typeName io c = .ok g) : g.Sound ∧ g.Unlinked := by
  obtain ⟨hs, hfree⟩ := portsShaped_new (ofCircuit typeName c) fun d =>
    ⟨_, port_ofCircuit typeName c d⟩
  obtain ⟨g₁, _, _, hr, -, -, h⟩ := close_eq_ok.mp h
  obtain ⟨i, o, hb⟩ := resolve_eq_ok hr
  obtain ⟨hs₁, hp₁⟩ := sound_setBoundary hs hc hb
  obtain ⟨-, -, -, -, rfl⟩ := setBoundary_eq_ok.mp hb
  obtain ⟨hshape, -, hc₁⟩ := sound_circuit_iff.mp hs₁
  obtain ⟨hs₂, hp₂⟩ := sound_setBoundary hshape hc₁ h
  exact ⟨hs₂, (hfree.samePlaces hp₁).samePlaces hp₂⟩

end Gate

theorem Circuit.sound_empty (registry : Registry) : (empty registry).Sound where
  wired := {
    shaped := fun d n p hp => by
      cases n with
      | gate id => cases hp
      | boundary => cases d <;> cases hp <;> exact Port.shaped_new _ _
      | host => cases d <;> cases hp
    gates_nodup := .nil
    gates_lt := fun id hid => by cases hid
    links_nodup := .nil
    links_lt := fun id hid => by cases hid
    ends := fun he => by cases he
    count := fun {d n p} hp path id => by
      have hend : (empty registry).end? d id = none := rfl
      rw [hend]
      cases n with
      | gate id => cases hp
      | boundary =>
        have hnew : p.linksAt path = [] := by cases d <;> cases hp <;> exact Port.linksAt_new _ _ _
        rw [hnew]
        rfl
      | host => cases d <;> cases hp }
  children hg := by cases hg

namespace Gate

theorem of_ofTemplateWithin {registry : Registry} {expanding : List String} {typeName : String}
    {g : Gate} (h : ofTemplateWithin registry expanding typeName = .ok g) :
    (∃ io name, g = .ofTransform typeName io name (registry.transform? name)) ∨
      ∃ d io c made, typeName ∈ registry.templates.keys ∧ typeName ∉ expanding ∧
        (Circuit.empty registry).insert (ofTemplateWithin registry (expanding ++ [typeName])) d
          .zero = (c, .ok made) ∧ close typeName io c = .ok g := by
  unfold ofTemplateWithin at h
  split at h
  · cases h
  next template ht =>
    split at h
    · cases h
    · cases h
      exact .inl ⟨_, _, rfl⟩
    next d _ =>
      split at h
      · cases h
      next hx =>
        dsimp only at h
        split at h
        · cases h
        next c made hi =>
          exact .inr ⟨d, template.io, c, made, Entries.mem_keys_of_get? ht, hx, hi, h⟩

theorem ofTemplate_transform (registry : Registry) (typeName : String) {name : String}
    {template : Template}
    (ht : registry.templates.get? typeName = some template)
    (hb : template.body typeName = .ok (.transform name)) :
    ofTemplate registry typeName =
      .ok (.ofTransform typeName template.io name (registry.transform? name)) := by
  unfold ofTemplate ofTemplateWithin
  split
  next hn => simp [hn] at ht
  next found hf =>
    rw [hf] at ht
    cases ht
    rw [hb]

theorem ofTemplate_unknown (registry : Registry) (typeName : String)
    (ht : registry.templates.get? typeName = none) :
    ofTemplate registry typeName = .error (.unknownGateType typeName) := by
  unfold ofTemplate ofTemplateWithin
  split
  next => rfl
  next found hf => simp [hf] at ht

theorem makesSound_ofTemplateWithin (registry : Registry) (expanding : List String) :
    MakesSound (ofTemplateWithin registry expanding) := by
  intro typeName g hg
  obtain ⟨io, name, rfl⟩ | ⟨d, io, c, made, hr, hx, hi, hc⟩ := of_ofTemplateWithin hg
  · exact sound_ofTransform typeName io name _
  · -- the gates inside come from an expansion that has one name less to expand
    have hmake := makesSound_ofTemplateWithin registry (expanding ++ [typeName])
    obtain ⟨n, -, hrec⟩ := Circuit.records_of_insert hmake (Circuit.sound_empty registry) hi
    exact close_sound hrec.ext.sound hc
termination_by (registry.unexpanded expanding).length
decreasing_by exact Registry.length_unexpanded_lt hr hx

theorem makesSound_ofTemplate (registry : Registry) : MakesSound (ofTemplate registry) :=
  makesSound_ofTemplateWithin registry []

/-- What holds of function gates and of circuits that are filled with gates of which it holds, no
matter which types are given to their boundaries, holds of every gate from a template. -/
theorem forall_ofTemplateWithin {registry : Registry} {P : Gate → Prop}
    (function : ∀ typeName io name, P (.ofTransform typeName io name (registry.transform? name)))
    (circuit : ∀ {make : String → Except Fault Gate} {d c made}, MakesSound make →
      (∀ name g, make name = .ok g → P g) →
      (Circuit.empty registry).insert make d .zero = (c, .ok made) →
      ∀ typeName, P (.ofCircuit typeName c))
    (boundary : ∀ {g g' : Gate} {input output}, P g → g.setBoundary input output = (g', .ok ()) → P g')
    {expanding : List String} {typeName : String} {g : Gate}
    (h : ofTemplateWithin registry expanding typeName = .ok g) : P g := by
  obtain ⟨io, name, rfl⟩ | ⟨d, io, c, made, hr, hx, hi, hc⟩ := of_ofTemplateWithin h
  · exact function typeName io name
  · have hmake : ∀ name g, ofTemplateWithin registry (expanding ++ [typeName]) name = .ok g → P g :=
      fun name g hm => forall_ofTemplateWithin function circuit boundary hm
    have hopen := circuit (makesSound_ofTemplateWithin registry _) hmake hi typeName
    obtain ⟨g₁, _, _, hres, -, -, hc⟩ := close_eq_ok.mp hc
    obtain ⟨_, _, hb⟩ := resolve_eq_ok hres
    exact boundary (boundary hopen hb) hc
termination_by (registry.unexpanded expanding).length
decreasing_by exact Registry.length_unexpanded_lt hr hx

section Insert

variable {face : Face} {c c' : Circuit Gate} {d : Description} {offset : Position}
  {made : Insertion} {g : Gate} {e : Fault}

theorem insert_of_resolved (hi : c.insert (ofTemplate c.registry) d offset = (c', .ok made))
    (hr : (Gate.circuit face c').resolve = (g, .ok ())) :
    (Gate.circuit face c).insert d offset = (g, .ok made.gates) := by
  simp only [insert, hi, hr]

theorem insert_of_refused (hi : c.insert (ofTemplate c.registry) d offset = (c', .ok made))
    (hr : (Gate.circuit face c').resolve = (g, .error e)) :
    (Gate.circuit face c).insert d offset = (.circuit face (c'.rollback made), .error e) := by
  obtain rfl := resolve_refused hr
  simp only [insert, hi, hr, mapInterior]

theorem insert_of_failed (hi : c.insert (ofTemplate c.registry) d offset = (c', .error e)) :
    (Gate.circuit face c).insert d offset = (.circuit face c', .error e) := by
  simp only [insert, hi]

end Insert

theorem insert_cases {c : Circuit Gate} (hc : c.Sound) (face : Face) (d : Description)
    (offset : Position) :
    ∃ n ≤ d.gates.length, ∃ c' made,
      Insertion.Records c ((d.gates.take n).map (·.id)) c' made ∧
        ((∃ g, (Gate.circuit face c').resolve = (g, .ok ()) ∧
          (Gate.circuit face c).insert d offset = (g, .ok made.gates)) ∨
        ∃ e, (Gate.circuit face c).insert d offset =
          (.circuit face (c'.rollback made), .error e)) := by
  obtain ⟨n, hn, c', made, hr, hi⟩ :=
    Circuit.insert_cases (makesSound_ofTemplate c.registry) hc d offset
  refine ⟨n, hn, c', made, hr, ?_⟩
  obtain hi | ⟨e, hi⟩ := hi
  · rcases hg : (Gate.circuit face c').resolve with ⟨g, e | ⟨⟩⟩
    · exact .inr ⟨e, insert_of_refused hi hg⟩
    · exact .inl ⟨g, rfl, insert_of_resolved hi hg⟩
  · exact .inr ⟨e, insert_of_failed hi⟩

end Gate

theorem Circuit.Sound.enlarged {c c' : Circuit Gate} {more : List (GateId × Gate)} (h : c.Sound)
    (he : c.Enlarged c' more) (hmore : ∀ e ∈ more, e.2.Sound ∧ e.2.Unlinked) : c'.Sound where
  wired := h.wired.enlarged he fun e hm => ⟨(hmore e hm).1.shaped, (hmore e hm).2⟩
  children hg := by
    rw [gate?, he.gates, Entries.get?_append] at hg
    obtain hg | ⟨-, hg⟩ := Option.or_eq_some_iff.mp hg
    · exact h.children hg
    · exact (hmore _ (Entries.mem_of_get? hg)).1

theorem Gate.SamePlaces.refl (g : Gate) : g.SamePlaces g := fun _ _ => rfl

theorem Gate.Sound.insert {g : Gate} (h : g.Sound) (d : Description) (offset : Position) :
    (g.insert d offset).1.Sound ∧ g.SamePlaces (g.insert d offset).1 := by
  cases g with
  | function face name t => exact ⟨h, .refl _⟩
  | circuit face c =>
    obtain ⟨hs, hm, hc⟩ := sound_circuit_iff.mp h
    obtain ⟨n, -, c', made, hr, ⟨g, hg, hi⟩ | ⟨e, hi⟩⟩ := insert_cases hc face d offset
    · obtain ⟨i, o, hb⟩ := resolve_eq_ok hg
      have hs' : (Gate.circuit face c').PortsShaped := by
        intro d
        cases d with
        | input => exact hs .input
        | output => exact hs .output
      obtain ⟨hg, hp⟩ := sound_setBoundary hs' hr.ext.sound hb
      rw [hi]
      refine ⟨hg, fun d path => ?_⟩
      cases d with
      | input => exact hp .input path
      | output => exact hp .output path
    · obtain ⟨orphans, he, hfree, -⟩ := hr.rollback hc
      rw [hi]
      refine ⟨sound_circuit_iff.mpr ⟨hs, ⟨?_, ?_⟩, hc.enlarged he hfree⟩, fun _ _ => rfl⟩
      · rw [he.innerInput]
        exact hm.input
      · rw [he.innerOutput]
        exact hm.output

end TickCircuit
