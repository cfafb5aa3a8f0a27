import TickCircuit.Proofs.Gate.Alike
import TickCircuit.Proofs.Gate.Synchrony
/-!
What stays the same while a circuit runs: what neither a tick nor a click inside breaks
(`Ticked.lasts`). Main statement: after any number of ticks the circuit is alike to what it was, with
its gates where they were, and each link from a gate carries what its source can give out
(`Ticked.keeps`).
-/
namespace TickCircuit

theorem Interface.accepts_childAt {i c : Interface} {v w : Value} {path : Path}
    (h : i.accepts v = true) (hc : i.childAt? path = some c) (hw : v.sub? path = some w) :
    c.accepts w = true := by
  induction path generalizing i v with
  | nil =>
    cases hc
    cases hw
    exact h
  | cons k path ih =>
    obtain ⟨j, hj, hc⟩ := Option.bind_eq_some_iff.mp hc
    obtain ⟨u, hu, hw⟩ := Option.bind_eq_some_iff.mp hw
    exact ih (accepts_child h hj hu) hc hw

namespace Gate

theorem tag_update (g : Gate) (t : LinkTable) : (g.update t).1.tag = g.tag := by
  have hface : ∀ (face : Face) (r : Except Fault Unit),
      (withFault face r).typeName = face.typeName ∧ (withFault face r).position = face.position := by
    intro face r
    cases r <;> exact ⟨rfl, rfl⟩
  cases g with
  | function face name transform => simp [update, tag, Gate.face, hface]
  | circuit face c =>
    rcases hp : c.pushed face t with ⟨links, e | ⟨⟩⟩
    · rw [update_circuit_of_error hp]
      rfl
    · rw [update_circuit_of_ok hp]
      simp [tag, Gate.face, hface]

theorem update_function (face : Face) (name : String) (f : Option Transform) (t : LinkTable) :
    ∃ face' f', ((Gate.function face name f).update t).1 = .function face' name f' ∧
      face'.input = face.input ∧ face'.output = face.output := by
  rcases hr : applyTransform face name f t with ⟨f', u, r⟩
  refine ⟨withFault face r, f', by rw [update, hr], ?_, ?_⟩ <;> cases r <;> rfl

theorem editAt_click {face : Face} {name : String} {f : Option Transform} {path : List GateId}
    {g : Gate} {handles : List Handle}
    (h : (Gate.function face name f).editAt Operation.click.run path = some (g, handles)) :
    g = .function face name (f.map (·.clicked.1)) := by
  cases path with
  | nil => cases f <;> cases h <;> rfl
  | cons id path => cases h

theorem face_click (g : Gate) : g.click.1.face = g.face := by
  cases g with
  | function face name t => cases t <;> rfl
  | circuit face c => rfl

theorem face_editAt {α : Type} {f : Gate → Gate × α} (hf : ∀ g, (f g).1.face = g.face)
    {path : List GateId} {g g' : Gate} {a : α} (h : g.editAt f path = some (g', a)) :
    g'.face = g.face := by
  cases path with
  | nil =>
    have hg := hf g
    rwa [Option.some.inj h] at hg
  | cons id path =>
    cases g with
    | function face name t => cases h
    | circuit face c =>
      obtain ⟨child, -, h⟩ := Option.bind_eq_some_iff.mp h
      obtain ⟨⟨child', b⟩, -, h⟩ := Option.bind_eq_some_iff.mp h
      cases h
      rfl

/-- What ticks make of a gate. Its outer links may carry anything from tick to tick and may be other
links, and gates inside may be clicked. -/
inductive Ticked (g : Gate) : Gate → Prop where
  | refl : Ticked g g
  | tick {g' : Gate} (h : Ticked g g') (outer : LinkTable) : Ticked g (g'.update outer).1
  | rewired {face face' : Face} {c : Circuit Gate} (h : Ticked g (.circuit face c))
    (input : face'.input.interface = face.input.interface)
    (output : face'.output.interface = face.output.interface) : Ticked g (.circuit face' c)
  | click {g' : Gate} (h : Ticked g g') (path : List GateId) :
    Ticked g (g'.perform path .click).1

/-- One tick after the other, against the outer links as they stand at each. -/
def run (g : Gate) (outers : List LinkTable) : Gate := outers.foldl (fun g t => (g.update t).1) g

theorem Ticked.run {g g' : Gate} (h : g.Ticked g') (outers : List LinkTable) :
    g.Ticked (g'.run outers) := by
  induction outers generalizing g' with
  | nil => exact h
  | cons t outers ih => exact ih (h.tick t)

end Gate

namespace Circuit
variable {c c' : Circuit Gate}

/-- What a link from a gate carries is what it was made for. -/
def Carries (c : Circuit Gate) : Prop :=
  ∀ id l, c.links.get? id = some l → l.source.node ≠ .boundary →
    c.typeAt? .output l.source = some l.data ∧
      ∀ v, l.current = some v ∨ l.last = some v → l.data.accepts v = true

structure Keeps (c c' : Circuit Gate) : Prop where
  sound : c'.Sound
  alike : c.Alike c'
  tags : c'.tags = c.tags
  carries : c'.Carries

theorem Alike.typeAt? (h : c.Alike c') (d : Direction) (e : Endpoint) :
    c.typeAt? d e = c'.typeAt? d e := by
  rw [Circuit.typeAt?, Circuit.typeAt?, interface?, interface?, h.port]

theorem Sound.tags_advanced (h : c.Sound) (links : LinkTable) :
    (c.advanced links).tags = c.tags := by
  rw [tags, Circuit.advanced, Gate.updateAll_eq h.shaped_gates]
  simp [tags, Gate.tag_update, Function.comp_def]

theorem Sound.alike_advanced (h : c.Sound) {links : LinkTable}
    (hlinks : links.stale = c.links.stale) : c.Alike (c.advanced links) where
  typeNames := by rw [typeNames, typeNames, h.tags_advanced]
  nextGate := rfl
  links := (h.blank_advanced hlinks).symm
  port d n := (h.port?_advanced links d n).symm

theorem Sound.ticked (h : c.Sound) (face : Face) (outer : LinkTable) :
    (c.ticked face outer).Sound ∧ c.Alike (c.ticked face outer) ∧
      (c.ticked face outer).tags = c.tags := by
  rcases hp : c.pushed face outer with ⟨links, r⟩
  have hstale : links.stale = c.links.stale := by
    rw [← Gate.stale_pushed h.wired.innerInput face outer, hp]
  rw [← h.advanced_eq hp]
  exact ⟨h.advanced (fun id g hg t => (h.children hg).update t) hstale, h.alike_advanced hstale,
    h.tags_advanced links⟩

/-- A tick is a step of the interior or, where the outer input is not taken in, none. -/
theorem Sound.update_circuit (h : c.Sound) (face : Face) (outer : LinkTable) :
    ∃ face' c', ((Gate.circuit face c).update outer).1 = .circuit face' c' ∧
      face'.input = face.input ∧ face'.output = face.output ∧
      (c.TakesIn face outer ∧ c' = c.ticked face outer ∨ ¬c.TakesIn face outer ∧ c' = c) := by
  obtain ⟨hyes, links, hp⟩ | ⟨hno, e, hp⟩ := pushed_cases h.wired.innerInput face outer
  · have hupdate := congrArg Prod.fst (Gate.update_circuit_of_ok hp)
    refine ⟨_, _, hupdate, ?_, ?_, .inl ⟨hyes, h.advanced_eq hp⟩⟩
    · cases ((c.advanced links).pulled face outer).2 <;> rfl
    · cases ((c.advanced links).pulled face outer).2 <;> rfl
  · have hupdate := congrArg Prod.fst (Gate.update_circuit_of_error hp)
    exact ⟨_, c, hupdate, rfl, rfl, .inr ⟨hno, rfl⟩⟩

theorem accepts_settled {l : Link} (htype : c.typeAt? .output l.source = some l.data)
    (hn : l.source.node ≠ .boundary)
    (hvalues : ∀ v, l.current = some v ∨ l.last = some v → l.data.accepts v = true) {face : Face}
    {outer : LinkTable} {v : Value} (hv : (c.settled face outer l).current = some v ∨
      (c.settled face outer l).last = some v) : l.data.accepts v = true := by
  have hv : ((c.emitted face outer l.source.node).bind (·.sub? l.source.path)).or l.current =
      some v := by
    obtain hv | hv := hv <;> exact hv
  obtain hw | ⟨-, hold⟩ := Option.or_eq_some_iff.mp hv
  · obtain ⟨w, hw, hpart⟩ := Option.bind_eq_some_iff.mp hw
    cases hsource : l.source.node with
    | gate gid =>
      rw [hsource] at hw
      obtain ⟨g, hg, hemission⟩ := Option.bind_eq_some_iff.mp hw
      have haccepts := Gate.accepts_of_emission hemission
      have hout : c.typeAt? .output l.source = g.output.interface.childAt? l.source.path := by
        rw [typeAt?, interface?, hsource, port?, hg]
        rfl
      exact Interface.accepts_childAt haccepts (hout.symm.trans htype) hpart
    | boundary => exact absurd hsource hn
    | host =>
      rw [hsource] at hw
      cases hw
  · exact hvalues v (.inl hold)

theorem get?_ticked (c : Circuit Gate) (face : Face) (outer : LinkTable) (id : LinkId) :
    (c.ticked face outer).links.get? id = (c.links.get? id).map (c.settled face outer) :=
  Entries.get?_map (c.settled face outer) id c.links.entries

theorem gate?_ticked (c : Circuit Gate) (face : Face) (outer : LinkTable) (id : GateId) :
    (c.ticked face outer).gate? id = (c.gate? id).map fun g => (g.update c.links).1 :=
  Entries.get?_map (fun g : Gate => (g.update c.links).1) id c.gates

theorem Carries.ticked (h : c.Carries) {face : Face} {outer : LinkTable}
    (halike : c.Alike (c.ticked face outer)) : (c.ticked face outer).Carries := by
  intro id l' hl' hnode
  rw [get?_ticked] at hl'
  obtain ⟨l, hl, rfl⟩ := Option.map_eq_some_iff.mp hl'
  obtain ⟨htype, hvalues⟩ := h id l hl hnode
  refine ⟨by rw [← halike.typeAt?]; exact htype, fun v hv => ?_⟩
  exact accepts_settled htype hnode hvalues hv

theorem Keeps.refl (hs : c.Sound) (h : c.Carries) : c.Keeps c := ⟨hs, .refl c, rfl, h⟩

theorem Sound.alike_replaceGate (hs : c.Sound) {id : GateId} {g g' : Gate}
    (hg : c.gate? id = some g) (hface : g'.face = g.face) :
    c.Alike (c.modifyGate id fun _ => g') ∧ (c.modifyGate id fun _ => g').tags = c.tags := by
  have hport : ∀ d, g'.port d = g.port d := by
    intro d
    cases d <;> simp only [Gate.port, Gate.input, Gate.output, hface]
  have hports : ∀ d n, c.port? d n = (c.modifyGate id fun _ => g').port? d n := by
    intro d n
    rw [port?_modifyGate]
    split
    next hn => rw [hn, port?, hg, Option.map_some, Option.map_some, hport]
    next => rfl
  have htags : (c.modifyGate id fun _ => g').tags = c.tags := by
    rw [Circuit.tags, modifyGate, Entries.modify_eq_map hs.wired.gates_nodup, List.map_map]
    refine List.map_congr_left fun e he => ?_
    have he := Entries.get?_of_mem hs.wired.gates_nodup he
    by_cases hid : e.1 = id
    · rw [hid, ← gate?, hg] at he
      cases he
      simp [hid, Gate.tag, hface]
    · simp [hid]
  exact ⟨⟨by rw [typeNames, typeNames, htags], rfl, rfl, hports⟩, htags⟩

theorem Sound.sound_replaceGate (hs : c.Sound) {id : GateId} {g g' : Gate}
    (hg : c.gate? id = some g) (hs' : g'.Sound) (hface : g'.face = g.face) :
    (c.modifyGate id fun _ => g').Sound :=
  hs.replaceGate hg hs' (.of_port_eq fun d => by
    cases d <;> simp only [Gate.port, Gate.input, Gate.output, hface])

/-- Neither a tick nor a click on what is inside breaks the property. -/
structure Lasting (P : Circuit Gate → Prop) : Prop where
  ticked : ∀ {c} face outer, c.Sound → P c → P (c.ticked face outer)
  clicked : ∀ {c : Circuit Gate} {id : GateId} {g g' : Gate} {path : List GateId}
    {handles : List Handle}, c.Sound → c.gate? id = some g →
    g.editAt Operation.click.run path = some (g', handles) →
    g'.Sound → g'.face = g.face → P c → P (c.modifyGate id fun _ => g')

variable {P : Circuit Gate → Prop}

theorem Lasting.click (hP : Lasting P) (hs : c.Sound) (h : P c) (face : Face)
    (path : List GateId) : ∃ c', ((Gate.circuit face c).perform path .click).1 = .circuit face c' ∧
      c'.Sound ∧ P c' := by
  rw [Gate.perform]
  cases path with
  | nil => exact ⟨c, rfl, hs, h⟩
  | cons id path =>
    cases he : (Gate.circuit face c).editAt Operation.click.run (id :: path) with
    | none => exact ⟨c, rfl, hs, h⟩
    | some r =>
      obtain ⟨child, hchild, he⟩ := Option.bind_eq_some_iff.mp he
      obtain ⟨⟨child', handles⟩, hedit, he⟩ := Option.bind_eq_some_iff.mp he
      cases he
      have hclick : ∀ g : Gate, g.Sound → (Operation.click.run g).1.Sound ∧
          g.SamePlaces (Operation.click.run g).1 :=
        fun g hg => Operation.sound hg fun _ ha => by cases ha
      have hsound := ((hs.children hchild).editAt hclick hedit).1
      have hface := Gate.face_editAt (f := Operation.click.run) Gate.face_click hedit
      exact ⟨_, rfl, hs.sound_replaceGate hchild hsound hface,
        hP.clicked hs hchild hedit hsound hface h⟩

end Circuit

theorem Gate.Ticked.lasts {P : Circuit Gate → Prop} {face : Face} {c : Circuit Gate} {g : Gate}
    (h : (Gate.circuit face c).Ticked g) (hP : Circuit.Lasting P) (hs : c.Sound) (hc : P c) :
    ∃ face' c', g = .circuit face' c' ∧ c'.Sound ∧ P c' ∧
      face'.input.interface = face.input.interface ∧
      face'.output.interface = face.output.interface := by
  induction h with
  | refl => exact ⟨face, c, rfl, hs, hc, rfl, rfl⟩
  | tick _ outer ih =>
    obtain ⟨face₁, c₁, rfl, hs₁, hc₁, hi, ho⟩ := ih
    obtain ⟨face₂, c₂, he, hi', ho', ⟨-, rfl⟩ | ⟨-, rfl⟩⟩ := hs₁.update_circuit face₁ outer
    · exact ⟨face₂, _, he, (hs₁.ticked face₁ outer).1, hP.ticked face₁ outer hs₁ hc₁,
        by rw [hi', hi], by rw [ho', ho]⟩
    · exact ⟨face₂, _, he, hs₁, hc₁, by rw [hi', hi], by rw [ho', ho]⟩
  | @rewired face₁ face₂ c₁ _ input output ih =>
    obtain ⟨face', c', he, hs', hc', hi, ho⟩ := ih
    cases he
    exact ⟨face₂, c₁, rfl, hs', hc', input.trans hi, output.trans ho⟩
  | click _ path ih =>
    obtain ⟨face₁, c₁, rfl, hs₁, hc₁, hi, ho⟩ := ih
    obtain ⟨c₂, he, hs₂, hc₂⟩ := hP.click hs₁ hc₁ face₁ path
    exact ⟨face₁, c₂, he, hs₂, hc₂, hi, ho⟩

theorem Gate.Ticked.circuit {face : Face} {c : Circuit Gate} {g : Gate}
    (h : (Gate.circuit face c).Ticked g) (hs : c.Sound) :
    ∃ face' c', g = .circuit face' c' ∧ c'.Sound := by
  have hany : Circuit.Lasting fun _ => True :=
    ⟨fun _ _ _ _ => trivial, fun _ _ _ _ _ _ => trivial⟩
  obtain ⟨face', c', he, hs', -⟩ := h.lasts hany hs trivial
  exact ⟨face', c', he, hs'⟩

theorem Circuit.lasting_keeps (c : Circuit Gate) : Lasting c.Keeps where
  ticked face outer hs h := by
    obtain ⟨hsound, halike, htags⟩ := hs.ticked face outer
    exact ⟨hsound, h.alike.trans halike, htags.trans h.tags, h.carries.ticked halike⟩
  clicked hs hg _ hsound hface h := by
    obtain ⟨halike, htags⟩ := hs.alike_replaceGate hg hface
    refine ⟨hs.sound_replaceGate hg hsound hface, h.alike.trans halike, htags.trans h.tags,
      fun j l hl hn => ?_⟩
    rw [← halike.typeAt?]
    exact h.carries j l hl hn

theorem Gate.Ticked.keeps {face : Face} {c : Circuit Gate} {g : Gate}
    (h : (Gate.circuit face c).Ticked g) (hs : c.Sound) (hc : c.Carries) :
    ∃ face' c', g = .circuit face' c' ∧ c.Keeps c' ∧
      face'.input.interface = face.input.interface ∧
      face'.output.interface = face.output.interface := by
  obtain ⟨face', c', he, -, hkeeps, hi, ho⟩ := h.lasts c.lasting_keeps hs (.refl hs hc)
  exact ⟨face', c', he, hkeeps, hi, ho⟩

end TickCircuit
