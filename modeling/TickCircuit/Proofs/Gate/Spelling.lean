import TickCircuit.Proofs.Gate.Snapshot
import TickCircuit.Proofs.Value.Labels
/-!
The labels of what a circuit carries. Its values come from texts, and what gates make of them has no
other labels. Main statement: as long as a circuit is fed what was read, the labels on all of its
links, at every depth, could stand at the root of a text (`Fed.spelled`).
-/
namespace TickCircuit

def Transform.Spells (t : Transform) : Prop :=
  ∀ memory v w, (∀ u, v = some u → u.Spelled) → (t.apply memory v).2 = .ok (some w) → w.Spelled

theorem Transform.Spells.run {t : Transform} (h : t.Spells) (v : Option Value) :
    (t.run v).1.Spells := h

theorem Transform.Spells.clicked {t : Transform} (h : t.Spells) : t.clicked.1.Spells := by
  unfold Transform.clicked
  split
  · exact h
  · exact h

namespace Builtin

theorem spells_demanding {f : Value → Value} (hf : ∀ v, v.Spelled → (f v).Spelled) :
    (demanding f).Spells := by
  intro m v w hv hw
  cases v with
  | none => cases hw
  | some u =>
    cases hw
    exact hf u (hv u rfl)

theorem spells_ofBits (f : Value → Bool) : (ofBits f).Spells :=
  spells_demanding fun v _ => Value.spelled_bit (f v)

theorem spells : ∀ b ∈ all, b.fresh.Spells := by
  have hbits : ∀ {g : Nat → Nat} {f : Nat → Bool} {k : Nat → Option Nat},
      (⟨0, fun m _ => (g m, .ok (some (.bit none (f m)))), k⟩ : Transform).Spells := by
    intro g f k m v w _ hw
    cases hw
    exact Value.spelled_bit _
  intro b hb
  simp only [all, List.mem_cons, List.not_mem_nil, or_false] at hb
  obtain rfl | rfl | rfl | rfl | rfl | rfl | rfl | rfl | rfl | rfl | rfl := hb
  · intro m v w hv hw
    cases hw
    exact hv w rfl
  · refine spells_demanding fun v hv l hl => hv l ?_
    rwa [← Value.labels_invert]
  · exact spells_ofBits _
  · exact spells_ofBits _
  · exact spells_ofBits _
  · exact spells_ofBits _
  · exact spells_ofBits _
  · exact hbits
  · exact hbits
  · exact hbits
  · exact hbits

end Builtin

theorem Registry.spells {r : Registry} (plain : r.natives = []) {name : String} {t : Transform}
    (h : r.transform? name = some t) : t.Spells := by
  rw [transform?, plain] at h
  obtain ⟨b, hb, rfl⟩ := Option.map_eq_some_iff.mp h
  exact Builtin.spells b (List.mem_of_find?_eq_some hb)

def Link.Spelled (l : Link) : Prop := ∀ v, l.current = some v ∨ l.last = some v → v.Spelled

namespace Port

theorem spelled_of_readAll {subs : List Port} {t : LinkTable} {v : Value}
    (hparts : ∀ q ∈ subs, ∀ w, q.read t = .ok (some w) → w.Spelled)
    (hv : (Option.map (Value.collection none)) <$> readAll t subs = .ok (some v)) : v.Spelled := by
  obtain ⟨o, hs, ho⟩ := map_eq_ok.mp hv
  obtain ⟨vs, rfl, rfl⟩ := Option.map_eq_some_iff.mp ho
  obtain ⟨hlen, hread⟩ := of_readAll hs
  refine Value.spelled_collection.mpr fun w hw => ?_
  obtain ⟨k, hk⟩ := List.getElem?_of_mem hw
  have hlt : k < subs.length := hlen ▸ (List.getElem?_eq_some_iff.mp hk).1
  exact hparts _ (List.getElem_mem hlt) w (hread k _ w (List.getElem?_eq_getElem hlt) hk)

theorem spelled_of_read {p : Port} {t : LinkTable} {v : Value}
    (h : ∀ id ∈ p.allLinks, ∀ l w, t.get? id = some l → l.last = some w → w.Spelled)
    (hv : read t p = .ok (some v)) : v.Spelled := by
  induction p generalizing v with
  | mk d i ls subs ih =>
    have hparts : ∀ q ∈ subs, ∀ w, q.read t = .ok (some w) → w.Spelled := fun q hq w hw =>
      ih q hq (fun id hid => h id (List.mem_append_right _ (mem_linksBelow.mpr ⟨q, hq, hid⟩))) hw
    unfold read at hv
    cases hc : carried t ls with
    | some w =>
      obtain ⟨id, hid, l, hl, hw⟩ := of_carried hc
      rw [hc] at hv
      dsimp only at hv
      have hmem : id ∈ (mk d i ls subs).allLinks := List.mem_append_left _ hid
      cases hcheck : i.check w with
      | error e =>
        rw [hcheck] at hv
        cases hv
      | ok u =>
        rw [hcheck] at hv
        cases hv
        exact h id hmem l _ hl hw
    | none =>
      rw [hc] at hv
      cases i with
      | bit l =>
        cases hv
        exact Value.spelled_bit false
      | none l => cases hv
      | rest l e => exact spelled_of_readAll hparts hv
      | collection l cs => exact spelled_of_readAll hparts hv
      | any l =>
        dsimp only at hv
        split at hv
        · cases hv
        · exact spelled_of_readAll hparts hv

end Port

/-- At every depth, what is on the links has labels that were read, and gates make no others. -/
inductive Gate.Spelled : Gate → Prop where
  | function {face : Face} {name : String} {t : Option Transform}
    (transform : ∀ f, t = some f → f.Spells) : Spelled (.function face name t)
  | circuit {face : Face} {c : Circuit Gate}
    (links : ∀ id l, c.links.get? id = some l → l.Spelled)
    (interior : ∀ e ∈ c.gates, Spelled e.2) : Spelled (.circuit face c)

structure Circuit.Spelled (c : Circuit Gate) : Prop where
  links : ∀ id l, c.links.get? id = some l → l.Spelled
  interior : c.Each Gate.Spelled

namespace Gate

theorem spelled_circuit_iff {face : Face} {c : Circuit Gate} :
    (Gate.circuit face c).Spelled ↔ c.Spelled := by
  constructor
  · intro h
    obtain _ | ⟨links, interior⟩ := h
    exact ⟨links, interior⟩
  · intro h
    exact .circuit h.links h.interior

theorem Spelled.mapFace {g : Gate} (h : g.Spelled) (f : Face → Face) : (g.mapFace f).Spelled := by
  cases h with
  | function transform => exact .function transform
  | circuit links interior => exact .circuit links interior

theorem portBlind_spelled : PortBlind Spelled := by
  intro f d g h
  cases d <;> exact h.mapFace _

theorem Spelled.setBoundary {input output : Interface} {g g' : Gate} (h : g.Spelled)
    (hg : g.setBoundary input output = (g', .ok ())) : g'.Spelled := by
  cases g with
  | function face name t => cases hg
  | circuit face c =>
    obtain ⟨-, -, -, -, rfl⟩ := setBoundary_eq_ok.mp hg
    have hc := spelled_circuit_iff.mp h
    exact .circuit hc.links hc.interior

theorem Spelled.resolve {g g' : Gate} (h : g.Spelled) (hg : g.resolve = (g', .ok ())) :
    g'.Spelled := by
  cases g with
  | function face name t => cases hg
  | circuit face c =>
    obtain ⟨input, output, hb⟩ := resolve_eq_ok hg
    exact h.setBoundary hb

end Gate

namespace Circuit
variable {c : Circuit Gate} {registry : Registry} {d : Description}

theorem spelled_insert {make : String → Except Fault Gate} (hmake : MakesSound make)
    (hspelled : ∀ name g p, make name = .ok g → (g.moved p).Spelled) {offset : Position}
    {made : Insertion} (h : (empty registry).insert make d offset = (c, .ok made)) :
    c.Spelled := by
  have hinterior := (each_empty registry).insert Gate.portBlind_spelled hspelled d offset
  rw [h] at hinterior
  refine ⟨fun id l hl v hv => ?_, hinterior⟩
  obtain ⟨c₀, made₀, specs, ls, hg, hd, hj⟩ :=
    (insert_eq_ok hmake (sound_empty registry)).mp ⟨made, h⟩
  have hsound := (sound_empty registry).insertGates hmake offset d.gates
  rw [hg] at hsound
  have hmem : l ∈ ls := by
    rw [← hj.all_links hsound.wired hg]
    exact List.mem_map.mpr ⟨(id, l), Entries.mem_of_get? hl, rfl⟩
  obtain ⟨_, spec, _, _, hspec, -, -, hjoins⟩ := hj.mem hmem
  obtain ⟨text, -, hparse⟩ := mem_of_mapM hd hspec
  rw [hjoins.current, hjoins.last] at hv
  obtain hv | hv := hv <;> exact Value.spelled_of_linkSpec hparse hv

theorem Spelled.read (h : c.Spelled) {p : Port} {v : Value}
    (hv : p.read c.links = .ok (some v)) : v.Spelled :=
  Port.spelled_of_read (fun _ _ l w hl hw => h.links _ l hl w (.inr hw)) hv

end Circuit

namespace Gate
variable {registry : Registry}

theorem spelled_ofTemplateWithin (plain : registry.natives = []) {expanding : List String}
    {typeName : String} {g : Gate} (h : ofTemplateWithin registry expanding typeName = .ok g) :
    g.Spelled := by
  refine forall_ofTemplateWithin (P := Spelled) (fun _ _ name => ?_) (fun hsound hmake hi _ => ?_)
    Spelled.setBoundary h
  · exact .function fun f hf => Registry.spells plain hf
  · exact spelled_circuit_iff.mpr (Circuit.spelled_insert hsound
      (fun name g p hm => (hmake name g hm).mapFace _) hi)

end Gate

namespace Circuit
variable {c : Circuit Gate} {face : Face} {outer : LinkTable}

theorem spelled_of_filter {ε : Type} {x : Except ε (Option Value)} {i : Interface} {v : Value}
    (hx : ∀ w, x = .ok (some w) → w.Spelled)
    (h : x.toOption.bind (·.filter i.accepts) = some v) : v.Spelled := by
  cases x with
  | error e => cases h
  | ok o => exact hx v (congrArg Except.ok (Option.filter_eq_some_iff.mp h).1)

theorem Spelled.ticked (h : c.Spelled)
    (hin : ∀ v, face.input.read outer = .ok (some v) → v.Spelled)
    (hgates : ∀ e ∈ c.gates, (e.2.update c.links).1.Spelled ∧
      ∀ v, e.2.emission c.links = some v → v.Spelled) : (c.ticked face outer).Spelled where
  links id l' hl' v hv := by
    rw [get?_ticked] at hl'
    obtain ⟨l, hl, rfl⟩ := Option.map_eq_some_iff.mp hl'
    have hv : ((c.emitted face outer l.source.node).bind (·.sub? l.source.path)).or l.current =
        some v := by
      obtain hv | hv := hv <;> exact hv
    obtain hnew | ⟨-, hold⟩ := Option.or_eq_some_iff.mp hv
    · obtain ⟨w, hw, hpart⟩ := Option.bind_eq_some_iff.mp hnew
      refine Value.Spelled.sub ?_ hpart
      cases hsource : l.source.node with
      | gate gid =>
        rw [hsource] at hw
        obtain ⟨g, hg, hemission⟩ := Option.bind_eq_some_iff.mp hw
        exact (hgates (gid, g) (Entries.mem_of_get? hg)).2 w hemission
      | boundary =>
        rw [hsource] at hw
        exact spelled_of_filter hin hw
      | host =>
        rw [hsource] at hw
        cases hw
    · exact h.links id l hl v (.inl hold)
  interior := Entries.Each.map (P := Gate.Spelled) (f := fun g => (g.update c.links).1)
    fun e he => (hgates e he).1

theorem Spelled.update (h : c.Spelled) (hs : c.Sound)
    (hin : ∀ v, face.input.read outer = .ok (some v) → v.Spelled)
    (hgates : ∀ e ∈ c.gates, (e.2.update c.links).1.Spelled ∧
      ∀ v, e.2.emission c.links = some v → v.Spelled) :
    ((Gate.circuit face c).update outer).1.Spelled ∧
      ∀ v, (Gate.circuit face c).emission outer = some v → v.Spelled := by
  have hticked := h.ticked hin hgates
  constructor
  · obtain ⟨face', c', he, -, -, ⟨-, rfl⟩ | ⟨-, rfl⟩⟩ := hs.update_circuit face outer
    · rw [he]
      exact Gate.spelled_circuit_iff.mpr hticked
    · rw [he]
      exact Gate.spelled_circuit_iff.mpr h
  · intro v hv
    rw [Gate.emission] at hv
    rcases hp : c.pushed face outer with ⟨links, e | ⟨⟩⟩
    · rw [hp] at hv
      cases hv
    · rw [hp] at hv
      dsimp only at hv
      rw [hs.advanced_eq hp] at hv
      exact spelled_of_filter (fun w hw => hticked.read hw) hv

end Circuit

namespace Gate

theorem spells_applyTransform {transform : Option Transform}
    (h : ∀ f, transform = some f → f.Spells) (face : Face) (name : String) (t : LinkTable) :
    ∀ f, (applyTransform face name transform t).1 = some f → f.Spells := by
  intro f hf
  unfold applyTransform at hf
  split at hf
  · exact h f hf
  · cases hf
  next v f₀ _ =>
    have hrun := (h f₀ rfl).run v
    rcases hr : f₀.run v with ⟨f₁, e | w⟩
    · rw [hr] at hf hrun
      cases hf
      exact hrun
    · rw [hr] at hf hrun
      cases hf
      exact hrun

theorem spelled_of_readInput {face : Face} {t : LinkTable} {o : Option Value}
    (hin : ∀ v, face.input.read t = .ok (some v) → v.Spelled) (ho : readInput face t = .ok o) :
    ∀ v, o = some v → v.Spelled := by
  intro v hv
  unfold readInput at ho
  split at ho
  · cases ho
    cases hv
  · exact hin v (hv ▸ ho)

theorem Sound.spelled_update {g : Gate} (hs : g.Sound) (h : g.Spelled) {t : LinkTable}
    (hin : ∀ v, g.input.read t = .ok (some v) → v.Spelled) :
    (g.update t).1.Spelled ∧ ∀ v, g.emission t = some v → v.Spelled := by
  induction hs generalizing t with
  | @function face name transform _ =>
    obtain ⟨htransform⟩ := h
    constructor
    · exact .function (spells_applyTransform htransform face name t)
    · intro v hv
      simp only [emission] at hv
      split at hv
      next o f ho _ =>
        refine Circuit.spelled_of_filter (fun w hw => ?_) hv
        exact htransform f rfl _ o w (spelled_of_readInput hin ho) hw
      next => cases hv
  | @circuit face c shaped matched wired children ih =>
    have hc : c.Sound := ⟨wired, fun {id g} => children id g⟩
    have hinside := spelled_circuit_iff.mp h
    refine hinside.update hc hin fun e he => ?_
    exact ih e.1 e.2 (Entries.get?_of_mem wired.gates_nodup he) (hinside.interior e he)
      fun v hv => hinside.read hv

theorem Spelled.click {g : Gate} (h : g.Spelled) : g.click.1.Spelled := by
  cases g with
  | function face name t =>
    obtain ⟨htransform⟩ := h
    cases t with
    | none => exact .function htransform
    | some f =>
      refine .function fun f' hf => ?_
      cases hf
      exact (htransform f rfl).clicked
  | circuit face c => exact h

theorem Spelled.editAt_click {path : List GateId} {g g' : Gate} {handles : List Handle}
    (h : g.Spelled) (he : g.editAt Operation.click.run path = some (g', handles)) :
    g'.Spelled := by
  induction path generalizing g g' handles with
  | nil =>
    have hrun : g.click.1 = g' := congrArg Prod.fst (Option.some.inj he)
    exact hrun ▸ h.click
  | cons id path ih =>
    cases g with
    | function face name t => cases he
    | circuit face c =>
      have hc := spelled_circuit_iff.mp h
      obtain ⟨child, hchild, he⟩ := Option.bind_eq_some_iff.mp he
      obtain ⟨⟨child', b⟩, hedit, he⟩ := Option.bind_eq_some_iff.mp he
      cases he
      have hnew := ih (Entries.Each.get? hc.interior hchild) hedit
      have hinterior := Entries.Each.modify hc.interior id (f := fun _ => child') fun _ _ => hnew
      exact .circuit hc.links hinterior

/-- What ticks make of a gate if all that comes from outside was read. As with other runs, its
outer links may be other ones from tick to tick, and gates inside may be clicked. -/
inductive Fed (g : Gate) : Gate → Prop where
  | refl : Fed g g
  | tick {g' : Gate} (h : Fed g g') (outer : LinkTable)
    (literals : ∀ id ∈ g'.input.allLinks, ∀ l v, outer.get? id = some l → l.last = some v →
      ∃ text, parseLiteral text = .ok (some v)) : Fed g (g'.update outer).1
  | rewired {face face' : Face} {c : Circuit Gate} (h : Fed g (.circuit face c))
    (input : face'.input.interface = face.input.interface)
    (output : face'.output.interface = face.output.interface) : Fed g (.circuit face' c)
  | click {g' : Gate} (h : Fed g g') (path : List GateId) : Fed g (g'.perform path .click).1

theorem Fed.ticked {g g' : Gate} (h : g.Fed g') : g.Ticked g' := by
  induction h with
  | refl => exact .refl
  | tick _ outer _ ih => exact ih.tick outer
  | rewired _ input output ih => exact ih.rewired input output
  | click _ path ih => exact ih.click path

theorem Fed.spelled {face : Face} {c : Circuit Gate} {g : Gate} (h : (Gate.circuit face c).Fed g)
    (hs : c.Sound) (hspelled : (Gate.circuit face c).Spelled) : g.Spelled := by
  induction h with
  | refl => exact hspelled
  | @tick g' h outer literals ih =>
    obtain ⟨face', c', rfl, hs'⟩ := h.ticked.circuit hs
    have hc := spelled_circuit_iff.mp ih
    refine (hc.update hs' (fun v hv => ?_) fun e he => ?_).1
    · refine Port.spelled_of_read (fun id hid l w hl hw => ?_) hv
      obtain ⟨text, htext⟩ := literals id hid l w hl hw
      exact Value.spelled_of_parseLiteral htext
    · have hchild := hs'.children (Entries.get?_of_mem hs'.wired.gates_nodup he)
      exact hchild.spelled_update (hc.interior e he) fun v hv => hc.read hv
  | rewired _ _ _ ih =>
    have hc := spelled_circuit_iff.mp ih
    exact .circuit hc.links hc.interior
  | @click g' _ path ih =>
    rw [perform]
    cases he : g'.editAt Operation.click.run path with
    | none => exact ih
    | some r => exact ih.editAt_click he

end Gate

theorem Gate.spelled_of_insert {registry : Registry} (plain : registry.natives = [])
    {name : String} {d : Description} {offset : Position} {start : Gate}
    {ids : Entries String GateId}
    (made : (Gate.ofCircuit name (.empty registry)).insert d offset = (start, .ok ids)) :
    start.Spelled := by
  obtain ⟨c₁, made₁, hi, hr⟩ := insert_eq_ok.mp ⟨ids, made⟩
  have hmake : ∀ typeName g p, ofTemplate registry typeName = .ok g → (g.moved p).Spelled :=
    fun _ _ _ h => (spelled_ofTemplateWithin plain h).mapFace _
  have hc₁ := Circuit.spelled_insert (makesSound_ofTemplate registry) hmake hi
  exact (spelled_circuit_iff.mpr hc₁).resolve hr

end TickCircuit
